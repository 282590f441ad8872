import Mathlib.Algebra.BigOperators.Group.Finset.Basic
import Mathlib.Algebra.BigOperators.Intervals
import Olive.MoveElision

/-! A statement before move elision and after it: the states they leave differ in the locals that promoted
operands have nulled. -/

namespace Olive

open Lockstep OwnedRuns MoveElision

namespace MoveElision

/-- An operand that stayed, or a promoted one. -/
def Optimized (decls : List LocalDecl) (liveAfter : Finset Local) (before after : Operand) : Prop :=
  after = before ∨ ∃ l, before = .copy l ∧ after = .move l ∧ l ∉ liveAfter ∧ owns decls l = true

section Statements

variable {decls : List LocalDecl} {liveAfter : Finset Local}

theorem optimizeOperand_optimized (op : Operand) :
    Optimized decls liveAfter op (optimizeOperand decls liveAfter op) := by
  cases op with
  | copy l =>
    simp only [optimizeOperand]
    split
    next h => exact .inr ⟨l, rfl, rfl, h.1, h.2⟩
    next => exact .inl rfl
  | _ => exact .inl rfl

def Matching (decls : List LocalDecl) (liveAfter : Finset Local) (a b : Operand × Bool) : Prop :=
  b.2 = a.2 ∧ Optimized decls liveAfter a.1 b.1

theorem matching_refl (ops : List (Operand × Bool)) :
    List.Forall₂ (Matching decls liveAfter) ops ops :=
  List.forall₂_same.mpr fun _ _ => ⟨rfl, .inl rfl⟩

theorem matching_map (b : Bool) (ops : List Operand) :
    List.Forall₂ (Matching decls liveAfter) (ops.map (·, b))
      ((ops.map (optimizeOperand decls liveAfter)).map (·, b)) := by
  induction ops with
  | nil => exact .nil
  | cons op ops ih => exact .cons ⟨rfl, optimizeOperand_optimized op⟩ ih

/-- The pass promotes operands in their places. -/
theorem handedOperands_optimizeStatement (kind : StatementKind) :
    List.Forall₂ (Matching decls liveAfter) (handedOperands kind)
      (handedOperands (optimizeStatement decls liveAfter kind)) := by
  have hone : ∀ op b, Matching decls liveAfter (op, b) (optimizeOperand decls liveAfter op, b) :=
    fun op _ => ⟨rfl, optimizeOperand_optimized op⟩
  cases kind with
  | assign dst rval =>
    cases rval with
    | use op =>
      simp only [optimizeStatement]
      split
      next => exact .cons (hone op false) .nil
      next => exact matching_refl _
    | aggregate kind ops => exact matching_map true ops
    | call func args =>
      simp only [optimizeStatement]
      split
      next =>
        refine .cons ⟨rfl, .inl rfl⟩ ?_
        match args with
        | [] => exact .nil
        | [a] => exact matching_refl _
        | a :: b :: rest =>
          simp only [List.modify_succ_cons, List.modify_zero_cons, List.mapIdx_cons]
          exact .cons ⟨rfl, .inl rfl⟩ (.cons ⟨rfl, optimizeOperand_optimized b⟩ (matching_refl _))
      next => exact matching_refl _
    | _ => exact matching_refl _
  | setAttr obj attr val => exact .cons ⟨rfl, .inl rfl⟩ (.cons (hone val true) .nil)
  | ptrStore ptr val => exact .cons ⟨rfl, .inl rfl⟩ (.cons (hone val true) .nil)
  | setIndex obj idx val unchecked =>
    exact .cons ⟨rfl, .inl rfl⟩ (.cons ⟨rfl, .inl rfl⟩ (.cons (hone val true) .nil))
  | _ => exact matching_refl _

end Statements

end MoveElision

/-- The operand as it was. -/
def OwnedRuns.Read.original (r : Read) : Read := ⟨r.before, r.before, r.handed⟩

/-- What a run of the function as it is does not show: `nulled` are the locals that a promoted
operand would have nulled since they were assigned, `owed` those of them whose `Drop` has not come,
with whether the operand was handed over, and `ended` those dropped or out of storage since then. -/
structure Marks where
  nulled : Local → Bool
  owed : Local → Option Bool
  ended : Local → Bool

namespace Marks

def clear : Marks := ⟨fun _ => false, fun _ => none, fun _ => false⟩

def owe (m : Marks) (l : Local) (handed : Bool) : Marks :=
  { m with
    nulled := fun x => if x = l then true else m.nulled x
    owed := fun x => if x = l then some handed else m.owed x }

def read (m : Marks) (r : Read) : Marks :=
  match r.promoted, r.after.local? with
  | true, some l => m.owe l r.handed
  | _, _ => m

def finish (decls : List LocalDecl) (m : Marks) (kind : StatementKind) : Marks :=
  match kind with
  | .assign dst _ =>
    ⟨fun x => if x = dst then false else m.nulled x, fun x => if x = dst then none else m.owed x,
      fun x => if x = dst then false else m.ended x⟩
  | .drop l =>
    { m with
      owed := fun x => if x = l ∧ (tyOf decls l).needsDrop then none else m.owed x
      ended := fun x => if x = l then true else m.ended x }
  | .storageDead l => { m with ended := fun x => if x = l then true else m.ended x }
  | _ => m

end Marks

/-- The state that the function after the pass is in, when the function before it is in `s`. -/
def hide (s : OwnState) (m : Marks) (released : List Word) : OwnState :=
  ⟨fun l => if m.nulled l then 0 else s.locals l, m.nulled, released, s.asked⟩

/-- The function as it is nulls nothing on its own account; what is owed is hidden; and what is
hidden and no longer owed is null. -/
structure Kept (decls : List LocalDecl) (s : OwnState) (m : Marks) : Prop where
  plain : s.nulled = fun _ => false
  owed : ∀ l b, m.owed l = some b → m.nulled l = true ∧ owns decls l = true
  paid : ∀ l, m.nulled l = true → m.owed l = none → s.locals l = 0

/-- Whether the word `w` in `l` has been handed over before its `Drop`. -/
def early (decls : List LocalDecl) (s : OwnState) (m : Marks) (w : Word) (l : Local) : Nat :=
  if l < decls.length ∧ m.owed l = some true ∧ s.locals l = w then 1 else 0

/-- The releases of `w` that come early. -/
def earlyCount (decls : List LocalDecl) (s : OwnState) (m : Marks) (w : Word) : Nat :=
  ∑ l ∈ Finset.range decls.length, early decls s m w l

/-- Each release of `w` after the pass is one before it, or comes early. -/
def Balanced (decls : List LocalDecl) (s : OwnState) (m : Marks) (released : List Word) (w : Word) :
    Prop :=
  released.count w = s.released.count w + earlyCount decls s m w

section Balance

variable {decls : List LocalDecl} {s s' : OwnState} {m m' : Marks} {released : List Word} {w : Word}

/-- A change at one local. -/
theorem earlyCount_change {l : Local}
    (h : ∀ x, x ≠ l → early decls s' m' w x = early decls s m w x) :
    earlyCount decls s' m' w + early decls s m w l = earlyCount decls s m w + early decls s' m' w l := by
  have hout : ∀ (s : OwnState) (m : Marks), ¬l < decls.length → early decls s m w l = 0 :=
    fun s m hl => if_neg fun hearly => hl hearly.1
  by_cases hl : l < decls.length
  · have hmem : l ∈ Finset.range decls.length := Finset.mem_range.mpr hl
    have hafter := Finset.add_sum_erase (Finset.range decls.length) (early decls s' m' w) hmem
    have hbefore := Finset.add_sum_erase (Finset.range decls.length) (early decls s m w) hmem
    have hrest : ∑ x ∈ (Finset.range decls.length).erase l, early decls s' m' w x =
        ∑ x ∈ (Finset.range decls.length).erase l, early decls s m w x :=
      Finset.sum_congr rfl fun x hx => h x (Finset.ne_of_mem_erase hx)
    unfold earlyCount
    omega
  · have hsame : earlyCount decls s' m' w = earlyCount decls s m w := by
      refine Finset.sum_congr rfl fun x hx => h x fun hxl => hl ?_
      rw [← hxl]
      exact Finset.mem_range.mp hx
    rw [hsame, hout s m hl, hout s' m' hl]

theorem early_congr {x : Local} (howed : m'.owed x = m.owed x)
    (hlocals : m.owed x = some true → s'.locals x = s.locals x) :
    early decls s' m' w x = early decls s m w x := by
  unfold early
  rw [howed]
  by_cases ho : m.owed x = some true
  · rw [hlocals ho]
  · rw [if_neg fun h => ho h.2.1, if_neg fun h => ho h.2.1]

theorem releasing_count (hw : w ≠ 0) (released : List Word) (v : Word) :
    (releasing released v).count w = released.count w + if v = w then 1 else 0 := by
  unfold releasing
  by_cases hv : v = 0
  · rw [if_pos hv, if_neg fun h => hw (h.symm.trans hv)]
    rfl
  · rw [if_neg hv]
    simp [List.count_append, List.count_singleton, beq_iff_eq]

end Balance

section Reading

variable {env : Answers} {decls : List LocalDecl} {liveAfter : Finset Local} {s : OwnState} {m : Marks}
  {r : Read} {l : Local}

theorem Kept.not_owed (hk : Kept decls s m) (hl : m.nulled l = false) : m.owed l = none := by
  cases ho : m.owed l with
  | none => rfl
  | some b =>
    have hnull := (hk.owed l b ho).1
    rw [hl] at hnull
    cases hnull

theorem read_of_same (m : Marks) (h : r.after = r.before) : m.read r = m := by
  have hpromoted : r.promoted = false := by simp [Read.promoted, h]
  simp [Marks.read, hpromoted]

theorem read_of_promoted (m : Marks) (hbefore : r.before = .copy l) (hafter : r.after = .move l) :
    m.read r = m.owe l r.handed := by
  have hpromoted : r.promoted = true := by simp [Read.promoted, hbefore, hafter]
  simp [Marks.read, hpromoted, hafter, Operand.local?]

/-- An operand moved before the pass and after it. -/
theorem moveOut_hidden (hk : Kept decls s m) (hl : m.nulled l = false) (hr : r.promoted = false)
    (released : List Word) : ∃ released',
      (hide s m released).moveOut l r = hide (s.moveOut l r) m released' ∧
      Kept decls (s.moveOut l r) m ∧
      ∀ w, w ≠ 0 → Balanced decls s m released w → Balanced decls (s.moveOut l r) m released' w := by
  have hword : (hide s m released).locals l = s.locals l := by simp [hide, hl]
  refine ⟨if r.handed then releasing released (s.locals l) else released, ?_, ?_, ?_⟩
  · unfold OwnState.moveOut
    rw [hword]
    simp only [hide, hr, OwnState.mk.injEq, Bool.false_eq_true, and_false, if_false, and_true]
    funext x
    by_cases hx : x = l
    · simp [hx]
    · simp [hx]
  · refine ⟨?_, hk.owed, ?_⟩
    · simp [OwnState.moveOut, hr, hk.plain]
    · intro x hx ho
      have hpaid := hk.paid x hx ho
      simp only [OwnState.moveOut]
      split
      next => rfl
      next => exact hpaid
  · intro w hw hb
    have hearly : earlyCount decls (s.moveOut l r) m w = earlyCount decls s m w := by
      refine Finset.sum_congr rfl fun x _ => early_congr rfl fun ho => ?_
      have hx : x ≠ l := by
        intro hxl
        rw [hxl, hk.not_owed hl] at ho
        cases ho
      simp [OwnState.moveOut, hx]
    unfold Balanced at hb ⊢
    rw [hearly]
    cases hh : r.handed with
    | false => simpa [OwnState.moveOut, hh] using hb
    | true =>
      simp only [OwnState.moveOut, hh, if_true, releasing_count hw]
      omega

/-- An operand copied before the pass and moved after it. -/
theorem promoted_hidden (hk : Kept decls s m) (hl : m.nulled l = false) (howns : owns decls l = true)
    (hbefore : r.before = .copy l) (hafter : r.after = .move l) (released : List Word) :
    ∃ released', (hide s m released).moveOut l r = hide s (m.read r) released' ∧
      Kept decls s (m.read r) ∧
      ∀ w, w ≠ 0 → Balanced decls s m released w → Balanced decls s (m.read r) released' w := by
  have hword : (hide s m released).locals l = s.locals l := by simp [hide, hl]
  have hpromoted : r.promoted = true := by simp [Read.promoted, hbefore, hafter]
  have hlt : l < decls.length := by
    cases hdecl : decls[l]? with
    | none => simp [owns, hdecl] at howns
    | some decl => exact (List.getElem?_eq_some_iff.mp hdecl).1
  rw [read_of_promoted m hbefore hafter]
  refine ⟨if r.handed then releasing released (s.locals l) else released, ?_, ?_, ?_⟩
  · unfold OwnState.moveOut
    rw [hword]
    simp only [hide, Marks.owe, hpromoted, OwnState.mk.injEq, and_true]
    funext x
    by_cases hx : x = l
    · simp [hx]
    · simp [hx]
  · refine ⟨hk.plain, ?_, ?_⟩
    · intro x b ho
      by_cases hx : x = l
      · rw [hx]
        exact ⟨if_pos rfl, howns⟩
      · simp only [Marks.owe, hx, if_false] at ho ⊢
        exact hk.owed x b ho
    · intro x hx ho
      by_cases hxl : x = l
      · simp [Marks.owe, hxl] at ho
      · simp only [Marks.owe, hxl, if_false] at hx ho
        exact hk.paid x hx ho
  · intro w hw hb
    have hchange := @earlyCount_change decls s s m (m.owe l r.handed) w l
      fun x hx => early_congr (if_neg hx) fun _ => rfl
    have hnone : early decls s m w l = 0 := by simp [early, hk.not_owed hl]
    unfold Balanced at hb ⊢
    cases hh : r.handed with
    | false =>
      have hsome : early decls s (m.owe l false) w l = 0 := by simp [early, Marks.owe]
      rw [hh] at hchange
      simp only [Bool.false_eq_true, if_false]
      omega
    | true =>
      have hsome : early decls s (m.owe l true) w l = if s.locals l = w then 1 else 0 := by
        simp [early, Marks.owe, hlt]
      rw [hh] at hchange
      simp only [if_true, releasing_count hw]
      omega

theorem original_of_same (h : r.after = r.before) : r.original = r := by
  obtain ⟨before, after, handed⟩ := r
  cases h
  rfl

theorem readOperand_hidden (hk : Kept decls s m) (hr : Optimized decls liveAfter r.before r.after)
    (hm : ∀ l, r.after.local? = some l → m.nulled l = false) (released : List Word) :
    ∃ v s' released', readOperand env s r.original = .ok (v, s') ∧
      readOperand env (hide s m released) r = .ok (v, hide s' (m.read r) released') ∧
      Kept decls s' (m.read r) ∧
      ∀ w, w ≠ 0 → Balanced decls s m released w → Balanced decls s' (m.read r) released' w := by
  have hplain : ∀ l, s.nulled l = false := fun l => congrFun hk.plain l
  rcases hr with hsame | ⟨l, hbefore, hafter, _, howns⟩
  · rw [original_of_same hsame, read_of_same m hsame]
    cases hop : r.after with
    | const c => exact ⟨env.constant c, s, released, by simp only [readOperand, hop],
        by simp only [readOperand, hop], hk, fun _ _ hb => hb⟩
    | copy l =>
      have hl : m.nulled l = false := hm l (by rw [hop]; rfl)
      exact ⟨s.locals l, s, released, by simp [readOperand, hop, hplain],
        by simp [readOperand, hop, hide, hl], hk, fun _ _ hb => hb⟩
    | move l =>
      have hl : m.nulled l = false := hm l (by rw [hop]; rfl)
      have hr : r.promoted = false := by simp [Read.promoted, hsame]
      obtain ⟨released', hout, hkept, hbal⟩ := moveOut_hidden hk hl hr released
      refine ⟨s.locals l, s.moveOut l r, released', by simp [readOperand, hop, hplain], ?_, hkept,
        hbal⟩
      rw [← hout]
      simp [readOperand, hop, hide, hl]
  · have hl : m.nulled l = false := hm l (by rw [hafter]; rfl)
    obtain ⟨released', hout, hkept, hbal⟩ := promoted_hidden hk hl howns hbefore hafter released
    refine ⟨s.locals l, s, released', by simp [readOperand, Read.original, hbefore, hplain], ?_, hkept,
      hbal⟩
    rw [← hout]
    simp [readOperand, hafter, hide, hl]

theorem read_nulled_of_ne (m : Marks) {x : Local}
    (h : r.promoted = true → some x ≠ r.after.local?) : (m.read r).nulled x = m.nulled x := by
  unfold Marks.read
  split
  next l hp hl =>
    have hx : x ≠ l := fun hx => h hp (by rw [hx, hl])
    exact if_neg hx
  next => rfl

/-- No operand of a statement reads what another has nulled. -/
def ReadOnce (rs : List Read) : Prop :=
  rs.Pairwise fun a b => a.promoted = true → b.after.local? ≠ a.after.local?

theorem readOperands_hidden {rs : List Read} (hk : Kept decls s m)
    (hrs : ∀ r ∈ rs, Optimized decls liveAfter r.before r.after)
    (hm : ∀ r ∈ rs, ∀ l, r.after.local? = some l → m.nulled l = false) (honce : ReadOnce rs)
    (released : List Word) :
    ∃ words s' released', readOperands env s (rs.map Read.original) = .ok (words, s') ∧
      readOperands env (hide s m released) rs = .ok (words, hide s' (rs.foldl Marks.read m) released') ∧
      Kept decls s' (rs.foldl Marks.read m) ∧
      ∀ w, w ≠ 0 → Balanced decls s m released w →
        Balanced decls s' (rs.foldl Marks.read m) released' w := by
  induction rs generalizing s m released with
  | nil => exact ⟨[], s, released, rfl, rfl, hk, fun _ _ hb => hb⟩
  | cons r rs ih =>
    obtain ⟨hfirst, hrest⟩ := List.pairwise_cons.mp honce
    obtain ⟨v, s₁, released₁, hf, hg, hk₁, hb₁⟩ := @readOperand_hidden env _ _ _ _ _ hk
      (hrs r List.mem_cons_self) (hm r List.mem_cons_self) released
    have hm₁ : ∀ r' ∈ rs, ∀ l, r'.after.local? = some l → (m.read r).nulled l = false := by
      intro r' hr' l hl
      rw [read_nulled_of_ne m fun hp hx => hfirst r' hr' hp (hl.trans hx)]
      exact hm r' (List.mem_cons_of_mem _ hr') l hl
    obtain ⟨words, s₂, released₂, hf₂, hg₂, hk₂, hb₂⟩ := ih hk₁
      (fun r' hr' => hrs r' (List.mem_cons_of_mem _ hr')) hm₁ hrest released₁
    refine ⟨v :: words, s₂, released₂, ?_, ?_, hk₂, fun w hw hb => hb₂ w hw (hb₁ w hw hb)⟩
    · simp only [List.map_cons, readOperands, hf, Except.bind, hf₂, Except.map]
    · simp only [readOperands, hg, Except.bind, hg₂, Except.map, List.foldl_cons]

end Reading

section Finishing

variable {env : Answers} {decls : List LocalDecl} {liveAfter : Finset Local} {s : OwnState} {m : Marks}
  {kind : StatementKind} {l dst : Local} {w : Word}

/-- The word `w` is not dropped where its local was promoted into a variable, nor lost where it was
handed over. -/
structure Pays (decls : List LocalDecl) (s : OwnState) (m : Marks) (kind : StatementKind) (w : Word) :
    Prop where
  drop : ∀ l, kind = .drop l → m.owed l = some false → s.locals l ≠ w
  assign : ∀ dst rval, kind = .assign dst rval → m.owed dst = some true → s.locals dst ≠ w

theorem owns_needsDrop (h : owns decls l = true) : (tyOf decls l).needsDrop = true := by
  unfold owns at h
  cases hdecl : decls[l]? with
  | none => simp [hdecl] at h
  | some decl =>
    simp only [hdecl, Option.any_some, Bool.and_eq_true] at h
    simp only [tyOf, hdecl, OliveType.needsDrop, h.2, Bool.true_or]

theorem assign_hidden (hk : Kept decls s m) (v : Word) (rval : Rvalue) (released : List Word) :
    (hide s m released).assign dst v =
        hide (s.assign dst v) (m.finish decls (.assign dst rval)) released ∧
      Kept decls (s.assign dst v) (m.finish decls (.assign dst rval)) ∧
      ∀ w, Pays decls s m (.assign dst rval) w → Balanced decls s m released w →
        Balanced decls (s.assign dst v) (m.finish decls (.assign dst rval)) released w := by
  refine ⟨?_, ⟨?_, ?_, ?_⟩, ?_⟩
  · simp only [hide, OwnState.assign, Marks.finish, OwnState.mk.injEq, and_true]
    funext x
    by_cases hx : x = dst
    · simp [hx]
    · simp [hx]
  · simp [OwnState.assign, hk.plain]
  · intro x b ho
    simp only [Marks.finish] at ho ⊢
    split at ho
    next => cases ho
    next hx =>
      rw [if_neg hx]
      exact hk.owed x b ho
  · intro x hx ho
    simp only [Marks.finish, OwnState.assign] at hx ho ⊢
    split at hx
    next => cases hx
    next hne =>
      rw [if_neg hne] at ho ⊢
      exact hk.paid x hx ho
  · intro w hpays hb
    have hchange := @earlyCount_change decls s (s.assign dst v) m (m.finish decls (.assign dst rval)) w
      dst fun x hx => early_congr (if_neg hx) fun _ => if_neg hx
    have hafter : early decls (s.assign dst v) (m.finish decls (.assign dst rval)) w dst = 0 := by
      simp [early, Marks.finish]
    have hbefore : early decls s m w dst = 0 :=
      if_neg fun h => hpays.assign dst rval rfl h.2.1 h.2.2
    unfold Balanced at hb ⊢
    show released.count w = s.released.count w + _
    omega

theorem drop_hidden (hk : Kept decls s m) (released : List Word) : ∃ released',
    (hide s m released).drop decls l = hide (s.drop decls l) (m.finish decls (.drop l)) released' ∧
      Kept decls (s.drop decls l) (m.finish decls (.drop l)) ∧
      (m.nulled l = true → released' = released) ∧
      ∀ w, w ≠ 0 → Pays decls s m (.drop l) w → Balanced decls s m released w →
        Balanced decls (s.drop decls l) (m.finish decls (.drop l)) released' w := by
  by_cases hneeds : (tyOf decls l).needsDrop = true
  · have hdrop : s.drop decls l = { s with
        locals := fun x => if x = l then 0 else s.locals x
        released := releasing s.released (s.locals l) } := if_pos hneeds
    refine ⟨if m.nulled l then released else releasing released (s.locals l), ?_, ⟨?_, ?_, ?_⟩, ?_, ?_⟩
    · rw [hdrop]
      simp only [OwnState.drop, hneeds, if_true, hide, Marks.finish, OwnState.mk.injEq, true_and,
        and_true]
      refine ⟨?_, ?_⟩
      · funext x
        by_cases hx : x = l
        · simp [hx]
        · simp [hx]
      · cases m.nulled l <;> simp [releasing]
    · rw [hdrop]
      exact hk.plain
    · intro x b ho
      simp only [Marks.finish, hneeds, and_true] at ho ⊢
      split at ho
      next => cases ho
      next => exact hk.owed x b ho
    · intro x hx ho
      rw [hdrop]
      simp only [Marks.finish, hneeds, and_true] at hx ho ⊢
      split
      next => rfl
      next hne =>
        rw [if_neg hne] at ho
        exact hk.paid x hx ho
    · intro hnull
      rw [hnull]
      rfl
    · intro w hw hpays hb
      have hchange := @earlyCount_change decls s (s.drop decls l) m (m.finish decls (.drop l)) w l
        fun x hx => early_congr (by simp [Marks.finish, hx]) fun _ => by rw [hdrop]; exact if_neg hx
      have hafter : early decls (s.drop decls l) (m.finish decls (.drop l)) w l = 0 := by
        simp [early, Marks.finish, hneeds]
      have hcount : (s.drop decls l).released.count w =
          s.released.count w + if s.locals l = w then 1 else 0 := by
        rw [hdrop]
        exact releasing_count hw _ _
      unfold Balanced at hb ⊢
      cases hnull : m.nulled l with
      | false =>
        have hbefore : early decls s m w l = 0 := by simp [early, hk.not_owed hnull]
        simp only [Bool.false_eq_true, if_false, releasing_count hw]
        omega
      | true =>
        simp only [if_true]
        cases ho : m.owed l with
        | none =>
          have hzero : ¬s.locals l = w := fun h => hw (h.symm.trans (hk.paid l hnull ho))
          have hbefore : early decls s m w l = 0 := by simp [early, ho]
          rw [if_neg hzero] at hcount
          omega
        | some b =>
          have hlt : l < decls.length := by
            cases hdecl : decls[l]? with
            | none =>
              have howns := (hk.owed l b ho).2
              simp [owns, hdecl] at howns
            | some decl => exact (List.getElem?_eq_some_iff.mp hdecl).1
          cases b with
          | false =>
            rw [if_neg (hpays.drop l rfl ho)] at hcount
            have hbefore : early decls s m w l = 0 := by simp [early, ho]
            omega
          | true =>
            have hbefore : early decls s m w l = if s.locals l = w then 1 else 0 := by
              simp [early, ho, hlt]
            omega
  · have hdrop : s.drop decls l = s := if_neg hneeds
    have hmarks : m.finish decls (.drop l) = { m with
        ended := fun x => if x = l then true else m.ended x } := by
      simp [Marks.finish, hneeds]
    rw [hdrop, hmarks]
    exact ⟨released, if_neg hneeds, ⟨hk.plain, hk.owed, hk.paid⟩, fun _ => rfl, fun _ _ _ hb => hb⟩

theorem finish_optimizeStatement (words : List Word) :
    OwnedRuns.finish env decls s (optimizeStatement decls liveAfter kind) words =
      OwnedRuns.finish env decls s kind words := by
  cases kind with
  | assign dst rval =>
    cases rval with
    | use op =>
      simp only [optimizeStatement]
      split <;> rfl
    | call func args =>
      simp only [optimizeStatement]
      split <;> rfl
    | _ => rfl
  | _ => rfl

/-- Two sides end alike, or go on to states that differ in what is hidden. -/
def HiddenAlike (decls : List LocalDecl) (s : OwnState) (m : Marks) (released : List Word)
    (kind : StatementKind) (m' : Marks) (o o' : OwnState ⊕ OwnEnd) : Prop :=
  (∃ s' released', o = .inl s' ∧ o' = .inl (hide s' m' released') ∧ Kept decls s' m' ∧
    ∀ w, w ≠ 0 → Pays decls s m kind w → Balanced decls s m released w →
      Balanced decls s' m' released' w) ∨
  o = .inr .stopped ∧ o' = .inr .stopped

theorem answered_hidden {next : OwnState → Word → OwnState} {m' : Marks} (words : List Word)
    (released : List Word)
    (h : ∀ v, next (hide { s with asked := s.asked + 1 } m released) v =
        hide (next { s with asked := s.asked + 1 } v) m' released ∧
      Kept decls (next { s with asked := s.asked + 1 } v) m' ∧
      ∀ w, Pays decls s m kind w → Balanced decls s m released w →
        Balanced decls (next { s with asked := s.asked + 1 } v) m' released w) :
    HiddenAlike decls s m released kind m' (answered env s words next)
      (answered env (hide s m released) words next) := by
  have hasked : (hide s m released).asked = s.asked := rfl
  unfold answered
  rw [hasked]
  cases hreply : env.reply s.asked words with
  | none => exact .inr ⟨rfl, rfl⟩
  | some v =>
    obtain ⟨hhide, hk, hb⟩ := h v
    exact .inl ⟨_, released, rfl, congrArg Sum.inl hhide, hk, fun w _ => hb w⟩

/-- What a statement does with its operands, before the pass and after it. -/
theorem finish_hidden (hk : Kept decls s m) (words : List Word) (released : List Word) :
    HiddenAlike decls s m released kind (m.finish decls kind) (OwnedRuns.finish env decls s kind words)
      (OwnedRuns.finish env decls (hide s m released) kind words) := by
  have hasked : Kept decls { s with asked := s.asked + 1 } m := ⟨hk.plain, hk.owed, hk.paid⟩
  have hstay : HiddenAlike decls s m released kind m (answered env s words fun s _ => s)
      (answered env (hide s m released) words fun s _ => s) :=
    answered_hidden words released fun _ => ⟨rfl, hasked, fun _ _ hb => hb⟩
  cases kind with
  | assign dst rval =>
    have hanswer : HiddenAlike decls s m released (.assign dst rval) (m.finish decls (.assign dst rval))
        (answered env s words fun s w => s.assign dst w)
        (answered env (hide s m released) words fun s w => s.assign dst w) := by
      refine answered_hidden words released fun v => ?_
      obtain ⟨hhide, hk', hb⟩ := assign_hidden hasked v rval released
      exact ⟨hhide, hk', fun w hpays => hb w ⟨hpays.drop, hpays.assign⟩⟩
    cases rval with
    | use op =>
      obtain ⟨hhide, hk', hb⟩ := assign_hidden hk (words.headD 0) (.use op) released
      exact .inl ⟨_, released, rfl, congrArg Sum.inl hhide, hk', fun w _ => hb w⟩
    | _ => exact hanswer
  | drop l =>
    obtain ⟨released', hhide, hk', _, hb⟩ := drop_hidden (l := l) hk released
    exact .inl ⟨_, released', rfl, congrArg Sum.inl hhide, hk', hb⟩
  | storageLive l => exact .inl ⟨s, released, rfl, rfl, hk, fun _ _ _ hb => hb⟩
  | storageDead l =>
    exact .inl ⟨s, released, rfl, rfl, ⟨hk.plain, hk.owed, hk.paid⟩, fun _ _ _ hb => hb⟩
  | _ => exact hstay

end Finishing

section Statements

variable {env : Answers} {decls : List LocalDecl} {liveAfter : Finset Local} {s : OwnState} {m : Marks}
  {stmt : Statement} {released : List Word}

/-- A statement beside what the pass makes of it. -/
def optimized (decls : List LocalDecl) (liveAfter : Finset Local) (stmt : Statement) : Paired :=
  (stmt, { stmt with kind := optimizeStatement decls liveAfter stmt.kind })

theorem zipWith_matching {as bs : List (Operand × Bool)}
    (h : List.Forall₂ (Matching decls liveAfter) as bs) :
    (∀ r ∈ as.zipWith (fun a b => (⟨a.1, b.1, a.2⟩ : Read)) bs,
      Optimized decls liveAfter r.before r.after) ∧
    (as.zipWith (fun a b => (⟨a.1, b.1, a.2⟩ : Read)) bs).map Read.original =
      as.zipWith (fun a b => (⟨a.1, b.1, a.2⟩ : Read)) as := by
  induction h with
  | nil => exact ⟨fun r hr => absurd hr List.not_mem_nil, rfl⟩
  | cons hab _ ih =>
    refine ⟨?_, ?_⟩
    · intro r hr
      rcases List.mem_cons.mp hr with rfl | hr
      · exact hab.2
      · exact ih.1 r hr
    · simp only [List.zipWith_cons_cons, List.map_cons, ih.2, Read.original]

theorem reads_optimized (stmt : Statement) :
    (∀ r ∈ reads (optimized decls liveAfter stmt), Optimized decls liveAfter r.before r.after) ∧
      (reads (optimized decls liveAfter stmt)).map Read.original = reads (stmt, stmt) :=
  zipWith_matching (handedOperands_optimizeStatement stmt.kind)

def Marks.exec (decls : List LocalDecl) (m : Marks) (stmt : Paired) : Marks :=
  ((reads stmt).foldl Marks.read m).finish decls stmt.1.kind

theorem readOperand_locals {r : Read} {v : Word} {s' : OwnState}
    (h : readOperand env s r = .ok (v, s')) (x : Local) :
    s'.locals x = s.locals x ∨ s'.locals x = 0 := by
  unfold readOperand at h
  split at h
  next =>
    cases h
    exact .inl rfl
  next l _ =>
    split at h
    next => cases h
    next =>
      cases h
      exact .inl rfl
  next l _ =>
    split at h
    next => cases h
    next =>
      cases h
      by_cases hx : x = l
      · exact .inr (if_pos hx)
      · exact .inl (if_neg hx)

theorem readOperands_locals {rs : List Read} {words : List Word} {s' : OwnState}
    (h : readOperands env s rs = .ok (words, s')) (x : Local) :
    s'.locals x = s.locals x ∨ s'.locals x = 0 := by
  induction rs generalizing s words with
  | nil =>
    cases h
    exact .inl rfl
  | cons r rs ih =>
    simp only [readOperands] at h
    cases hfirst : readOperand env s r with
    | error l => simp [hfirst, Except.bind] at h
    | ok first =>
      obtain ⟨v, s₁⟩ := first
      cases hrest : readOperands env s₁ rs with
      | error l => simp [hfirst, hrest, Except.bind, Except.map] at h
      | ok rest =>
        obtain ⟨vs, s₂⟩ := rest
        simp only [hfirst, hrest, Except.bind, Except.map, Except.ok.injEq, Prod.mk.injEq] at h
        obtain ⟨_, rfl⟩ := h
        rcases ih hrest with hx | hx
        · rw [hx]
          exact readOperand_locals hfirst x
        · exact .inr hx

/-- A statement that reads no nulled local does the same before the pass and after it, but for what is
hidden. -/
theorem execPaired_hidden (hk : Kept decls s m)
    (hm : ∀ r ∈ reads (optimized decls liveAfter stmt), ∀ l, r.after.local? = some l →
      m.nulled l = false)
    (honce : ReadOnce (reads (optimized decls liveAfter stmt))) :
    (∃ s' released', execPaired env decls s (stmt, stmt) = .inl s' ∧
      execPaired env decls (hide s m released) (optimized decls liveAfter stmt) =
        .inl (hide s' (m.exec decls (optimized decls liveAfter stmt)) released') ∧
      Kept decls s' (m.exec decls (optimized decls liveAfter stmt)) ∧
      ∀ w, w ≠ 0 →
        Pays decls s ((reads (optimized decls liveAfter stmt)).foldl Marks.read m) stmt.kind w →
        Balanced decls s m released w →
        Balanced decls s' (m.exec decls (optimized decls liveAfter stmt)) released' w) ∨
    (execPaired env decls s (stmt, stmt) = .inr .stopped ∧
      execPaired env decls (hide s m released) (optimized decls liveAfter stmt) = .inr .stopped) := by
  obtain ⟨hopt, horiginal⟩ := @reads_optimized decls liveAfter stmt
  obtain ⟨words, s₁, released₁, hf, hg, hk₁, hb₁⟩ := @readOperands_hidden env _ _ _ _ _ hk hopt hm honce
    released
  rw [horiginal] at hf
  have hfinish := @finish_hidden env decls s₁ _ stmt.kind hk₁ words released₁
  have hf' : execPaired env decls s (stmt, stmt) = OwnedRuns.finish env decls s₁ stmt.kind words := by
    simp only [execPaired, hf]
  have hg' : execPaired env decls (hide s m released) (optimized decls liveAfter stmt) =
      OwnedRuns.finish env decls
        (hide s₁ ((reads (optimized decls liveAfter stmt)).foldl Marks.read m) released₁) stmt.kind
        words := by
    simp only [execPaired, hg]
    exact finish_optimizeStatement words
  rw [hf', hg']
  rcases hfinish with ⟨s', released', hs, hs', hk', hb'⟩ | hstop
  · refine .inl ⟨s', released', hs, hs', hk', fun w hw hpays hb => hb' w hw ⟨?_, ?_⟩ (hb₁ w hw hb)⟩
    · intro l hl ho
      rcases readOperands_locals hf l with hx | hx
      · rw [hx]
        exact hpays.drop l hl ho
      · rw [hx]
        exact hw.symm
    · intro dst rval hd ho
      rcases readOperands_locals hf dst with hx | hx
      · rw [hx]
        exact hpays.assign dst rval hd ho
      · rw [hx]
        exact hw.symm
  · exact .inr hstop

/-- A terminator that reads no nulled local, and returns no nulled slot, does the same before the pass
and after it. -/
theorem execTerm_hidden {term : Option Terminator} (hk : Kept decls s m)
    (hread : ∀ discr targets otherwise span, term = some ⟨.switchInt discr targets otherwise, span⟩ →
      ∀ l, discr.local? = some l → m.nulled l = false)
    (hslot : ∀ span, term = some ⟨.ret, span⟩ → m.nulled 0 = false) :
    (∃ target s' released', (∃ t, term = some t ∧ target ∈ t.kind.successors) ∧
      OwnedRuns.execTerm env s term = .inl (target, s') ∧
      OwnedRuns.execTerm env (hide s m released) term = .inl (target, hide s' m released') ∧
      Kept decls s' m ∧
      ∀ w, w ≠ 0 → Balanced decls s m released w → Balanced decls s' m released' w) ∨
    (OwnedRuns.execTerm env s term = .inr .stopped ∧
      OwnedRuns.execTerm env (hide s m released) term = .inr .stopped) ∨
    ∃ v slotNulled, (term = none ∨ ∃ span, term = some ⟨.ret, span⟩) ∧
      OwnedRuns.execTerm env s term = .inr (.returned v slotNulled s.released) ∧
      OwnedRuns.execTerm env (hide s m released) term = .inr (.returned v false released) := by
  cases term with
  | none => exact .inr (.inr ⟨0, false, .inl rfl, rfl, rfl⟩)
  | some t =>
    obtain ⟨kind, span⟩ := t
    cases kind with
    | goto target =>
      exact .inl ⟨target, s, released, ⟨_, rfl, List.mem_singleton_self target⟩, rfl, rfl, hk,
        fun _ _ hb => hb⟩
    | ret =>
      refine .inr (.inr ⟨s.locals 0, s.nulled 0, .inr ⟨span, rfl⟩, rfl, ?_⟩)
      simp [OwnedRuns.execTerm, hide, hslot span rfl]
    | unreachable => exact .inr (.inl ⟨rfl, rfl⟩)
    | switchInt discr targets otherwise =>
      obtain ⟨v, s', released', hf, hg, hk', hb⟩ := @readOperand_hidden env decls ∅ s m
        ⟨discr, discr, false⟩ hk (.inl rfl) (hread discr targets otherwise span rfl) released
      have hf : readOperand env s ⟨discr, discr, false⟩ = .ok (v, s') := hf
      rw [read_of_same m rfl] at hg hk' hb
      have hasked : (hide s' m released').asked = s'.asked := rfl
      cases hreply : env.reply s'.asked [v] with
      | none =>
        refine .inr (.inl ⟨?_, ?_⟩)
        · simp only [OwnedRuns.execTerm, hf, hreply]
        · simp only [OwnedRuns.execTerm, hg, hasked, hreply]
      | some w =>
        refine .inl ⟨(targets.lookup w).getD otherwise, { s' with asked := s'.asked + 1 }, released',
          ⟨_, rfl, ?_⟩, ?_, ?_, ⟨hk'.plain, hk'.owed, hk'.paid⟩, hb⟩
        · exact lookup_mem_targets targets otherwise w
        · simp only [OwnedRuns.execTerm, hf, hreply]
        · simp only [OwnedRuns.execTerm, hg, hasked, hreply]
          rfl

end Statements

end Olive
