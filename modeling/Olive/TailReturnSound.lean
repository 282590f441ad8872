import Mathlib.Tactic.Common
import Olive.TailReturn

/-! When a function always returns a value. -/

namespace Olive

namespace TailReturn

/-- Where the ways through something lead, without their values: `plain` to what comes next without
one, `bare` to a `return` without one. -/
structure Ends where
  next : Bool
  plain : Bool
  bare : Bool
  brk : Bool
  deriving DecidableEq

namespace Ends

def never : Ends := ⟨false, false, false, false⟩

def done : Ends := ⟨true, true, false, false⟩

def seq (a b : Ends) : Ends :=
  ⟨a.next && b.next, a.next && b.plain, a.bare || a.next && b.bare, a.brk || a.next && b.brk⟩

def either (a b : Ends) : Ends :=
  ⟨a.next || b.next, a.plain || b.plain, a.bare || b.bare, a.brk || b.brk⟩

def drop (a : Ends) : Ends := { a with plain := a.next }

def keepIf (valued : Bool) (a : Ends) : Ends := if valued then a else drop a

def loop (test body after : Ends) : Ends where
  next := test.next && (after.next || body.brk)
  plain := test.next && (after.plain || body.brk)
  bare := test.bare || test.next && (after.bare || body.bare)
  brk := test.brk || test.next && after.brk

end Ends

mutual
def Expr.ends (inLoop : Bool) : Expr → Ends
  | .node _ operands skippable => .seq (exprsEnds inLoop operands) (skippableEnds inLoop skippable)
  | .ternary _ c a b => .seq (c.ends inLoop) (.either (a.ends inLoop) (b.ends inLoop))
  | .asyncBlock _ body => .drop (stmtsEnds inLoop body)
  | .matchCases _ scrutinee guards bodies exhaustive =>
    .seq (scrutinee.ends inLoop) (.seq (skippableEnds inLoop guards)
      (.either (.drop (bodiesEnds inLoop bodies)) (if exhaustive then .never else .done)))
def exprsEnds (inLoop : Bool) : List Expr → Ends
  | [] => .done
  | e :: es => .seq (e.ends inLoop) (exprsEnds inLoop es)
def skippableEnds (inLoop : Bool) : List Expr → Ends
  | [] => .done
  | e :: es => .seq (.either .done (e.ends inLoop)) (skippableEnds inLoop es)
def bodiesEnds (inLoop : Bool) : List (List Stmt) → Ends
  | [] => .never
  | b :: bs => .either (stmtsEnds inLoop b) (bodiesEnds inLoop bs)
def Stmt.ends (inLoop : Bool) : Stmt → Ends
  | .exprStmt e => .seq (e.ends inLoop) ⟨true, false, false, false⟩
  | .ret none => ⟨false, false, true, false⟩
  | .ret (some e) => .seq (e.ends inLoop) .never
  | .ifStmt c thenBody elifClauses elseBody =>
    let valued := match elseBody with
      | some body => !body.isEmpty
      | none => false
    .seq (c.ends inLoop) (.keepIf valued (.either (stmtsEnds inLoop thenBody)
      (elifsEnds inLoop (elseEnds inLoop elseBody) elifClauses)))
  | .whileStmt c body elseBody =>
    .drop (.loop (c.ends inLoop) (stmtsEnds true body) (elseEnds inLoop elseBody))
  | .forStmt iter body elseBody =>
    .seq (iter.ends inLoop) (.drop (.loop .done (stmtsEnds true body) (elseEnds inLoop elseBody)))
  | .withStmt items body => .seq (exprsEnds inLoop items) (.drop (stmtsEnds inLoop body))
  | .unsafeBlock body => stmtsEnds inLoop body
  | .breakStmt => if inLoop then ⟨false, false, false, true⟩ else .done
  | .continueStmt => if inLoop then .never else .done
  | .other exprs => exprsEnds inLoop exprs
def stmtsEnds (inLoop : Bool) : List Stmt → Ends
  | [] => .done
  | [s] => s.ends inLoop
  | s :: ss => .seq (s.ends inLoop) (stmtsEnds inLoop ss)
def elifsEnds (inLoop : Bool) (otherwise : Ends) : List Elif → Ends
  | [] => otherwise
  | .mk c body :: rest =>
    .seq (c.ends inLoop) (.either (stmtsEnds inLoop body) (elifsEnds inLoop otherwise rest))
def elseEnds (inLoop : Bool) : Option (List Stmt) → Ends
  | none => .done
  | some body => stmtsEnds inLoop body
end

/-- The ways lead exactly where the summary says. -/
structure Describes (P : Ways) (a : Ends) : Prop where
  next : a.next = true ↔ ∃ v, P (.next v)
  plain : a.plain = true ↔ P (.next none)
  bare : a.bare = true ↔ P (.returned false)
  brk : a.brk = true ↔ P .broke

variable {P Q R : Ways} {a b c : Ends}

theorem Describes.done : Describes .done .done := by
  constructor <;> simp [Ways.done, Ends.done]

theorem Describes.never : Describes (fun _ => False) .never := by
  constructor <;> simp [Ends.never]

theorem Describes.valued (id : Nat) :
    Describes (· = .next (some id)) ⟨true, false, false, false⟩ := by
  constructor <;> simp

theorem Describes.returned : Describes (· = .returned true) .never := by
  constructor <;> simp [Ends.never]

theorem Describes.seq (hP : Describes P a) (hQ : Describes Q b) :
    Describes (.seq P Q) (.seq a b) where
  next := by simp [Ends.seq, Ways.seq, hP.next, hQ.next]
  plain := by simp [Ends.seq, Ways.seq, hP.next, hQ.plain]
  bare := by simp [Ends.seq, Ways.seq, hP.next, hP.bare, hQ.bare]
  brk := by simp [Ends.seq, Ways.seq, hP.next, hP.brk, hQ.brk]

theorem Describes.either (hP : Describes P a) (hQ : Describes Q b) :
    Describes (.either P Q) (.either a b) where
  next := by simp [Ends.either, Ways.either, hP.next, hQ.next, exists_or]
  plain := by simp [Ends.either, Ways.either, hP.plain, hQ.plain]
  bare := by simp [Ends.either, Ways.either, hP.bare, hQ.bare]
  brk := by simp [Ends.either, Ways.either, hP.brk, hQ.brk]

theorem Describes.drop (hP : Describes P a) : Describes (.drop P) (.drop a) where
  next := by simp [Ends.drop, Ways.drop, hP.next]
  plain := by simp [Ends.drop, Ways.drop, hP.next]
  bare := hP.bare
  brk := hP.brk

theorem Describes.keepIf (valued : Bool) (hP : Describes P a) :
    Describes (.keepIf valued P) (.keepIf valued a) := by
  cases valued with
  | false => exact hP.drop
  | true => exact hP

/-- Where a loop leads. -/
theorem Ways.loop_iff {o : Outcome} : Ways.Loop P Q R o ↔
    (P o ∧ ∀ v, o ≠ .next v) ∨ (∃ u, P (.next u)) ∧
      (R o ∨ (o = .next none ∧ Q .broke) ∨ (o = .stopped ∧ Q .stopped) ∨
        ∃ v, o = .returned v ∧ Q (.returned v)) := by
  constructor
  · intro h
    induction h with
    | exit ht ho => exact .inr ⟨⟨_, ht⟩, .inl ho⟩
    | test ho hleaves => exact .inl ⟨ho, hleaves⟩
    | next _ _ _ ih => exact ih
    | continued _ _ _ ih => exact ih
    | broke ht hb => exact .inr ⟨⟨_, ht⟩, .inr (.inl ⟨rfl, hb⟩)⟩
    | returned ht hb => exact .inr ⟨⟨_, ht⟩, .inr (.inr (.inr ⟨_, rfl, hb⟩))⟩
    | stopped ht hb => exact .inr ⟨⟨_, ht⟩, .inr (.inr (.inl ⟨rfl, hb⟩))⟩
  · rintro (⟨ho, hleaves⟩ | ⟨⟨u, ht⟩, ho | ⟨rfl, hb⟩ | ⟨rfl, hb⟩ | ⟨v, rfl, hb⟩⟩)
    · exact .test ho hleaves
    · exact .exit ht ho
    · exact .broke ht hb
    · exact .stopped ht hb
    · exact .returned ht hb

theorem Describes.loop (hP : Describes P a) (hQ : Describes Q b) (hR : Describes R c) :
    Describes (.Loop P Q R) (.loop a b c) where
  next := by
    simp only [Ends.loop, Ways.loop_iff, Bool.and_eq_true, Bool.or_eq_true, hP.next, hQ.brk, hR.next]
    constructor
    · rintro ⟨ht, ⟨v, hv⟩ | hb⟩
      · exact ⟨v, .inr ⟨ht, .inl hv⟩⟩
      · exact ⟨none, .inr ⟨ht, .inr (.inl ⟨rfl, hb⟩)⟩⟩
    · rintro ⟨v, ⟨_, hleaves⟩ | ⟨ht, hv | ⟨_, hb⟩ | ⟨hne, _⟩ | ⟨_, hne, _⟩⟩⟩
      · exact absurd rfl (hleaves v)
      · exact ⟨ht, .inl ⟨v, hv⟩⟩
      · exact ⟨ht, .inr hb⟩
      · cases hne
      · cases hne
  plain := by simp [Ends.loop, Ways.loop_iff, hP.next, hQ.brk, hR.plain]
  bare := by
    simp [Ends.loop, Ways.loop_iff, hP.next, hP.bare, hQ.bare, hR.bare]
  brk := by simp [Ends.loop, Ways.loop_iff, hP.next, hP.brk, hR.brk]

theorem Describes.stopped (hP : Describes P a) : Describes (.either (· = .stopped) P) a where
  next := by simp [Ways.either, hP.next]
  plain := by simp [Ways.either, hP.plain]
  bare := by simp [Ways.either, hP.bare]
  brk := by simp [Ways.either, hP.brk]

mutual
theorem Expr.describes (inLoop : Bool) : ∀ e : Expr, Describes (e.ways inLoop) (e.ends inLoop)
  | .node _ operands skippable =>
    ((exprs_describes inLoop operands).seq (skippable_describes inLoop skippable)).stopped
  | .ternary _ c a b => (c.describes inLoop).seq ((a.describes inLoop).either (b.describes inLoop))
  | .asyncBlock _ body => (stmts_describes inLoop body).drop
  | .matchCases _ scrutinee guards bodies exhaustive => by
    refine (scrutinee.describes inLoop).seq ((skippable_describes inLoop guards).seq
      ((bodies_describes inLoop bodies).drop.either ?_))
    cases exhaustive with
    | true => simpa using Describes.never
    | false => simpa using Describes.done
theorem exprs_describes (inLoop : Bool) :
    ∀ es : List Expr, Describes (exprsWays inLoop es) (exprsEnds inLoop es)
  | [] => .done
  | e :: es => (e.describes inLoop).seq (exprs_describes inLoop es)
theorem skippable_describes (inLoop : Bool) :
    ∀ es : List Expr, Describes (skippableWays inLoop es) (skippableEnds inLoop es)
  | [] => .done
  | e :: es => (Describes.done.either (e.describes inLoop)).seq (skippable_describes inLoop es)
theorem bodies_describes (inLoop : Bool) :
    ∀ bs : List (List Stmt), Describes (bodiesWays inLoop bs) (bodiesEnds inLoop bs)
  | [] => .never
  | b :: bs => (stmts_describes inLoop b).either (bodies_describes inLoop bs)
theorem Stmt.describes (inLoop : Bool) : ∀ s : Stmt, Describes (s.ways inLoop) (s.ends inLoop)
  | .exprStmt e => (e.describes inLoop).seq (.valued e.id)
  | .ret none => by constructor <;> simp [Stmt.ways, Stmt.ends]
  | .ret (some e) => (e.describes inLoop).seq .returned
  | .ifStmt c thenBody elifClauses elseBody =>
    (c.describes inLoop).seq (((stmts_describes inLoop thenBody).either (elifs_describes inLoop
      (else_describes inLoop elseBody) elifClauses)).keepIf _)
  | .whileStmt c body elseBody =>
    ((c.describes inLoop).loop (stmts_describes true body) (else_describes inLoop elseBody)).drop
  | .forStmt iter body elseBody => (iter.describes inLoop).seq
    (Describes.done.loop (stmts_describes true body) (else_describes inLoop elseBody)).drop
  | .withStmt items body => (exprs_describes inLoop items).seq (stmts_describes inLoop body).drop
  | .unsafeBlock body => stmts_describes inLoop body
  | .breakStmt => by
    cases inLoop with
    | true => constructor <;> simp [Stmt.ways, Stmt.ends]
    | false => exact .done
  | .continueStmt => by
    cases inLoop with
    | true => constructor <;> simp [Stmt.ways, Stmt.ends, Ends.never]
    | false => exact .done
  | .other exprs => exprs_describes inLoop exprs
theorem stmts_describes (inLoop : Bool) :
    ∀ ss : List Stmt, Describes (stmtsWays inLoop ss) (stmtsEnds inLoop ss)
  | [] => .done
  | [s] => s.describes inLoop
  | s :: s' :: ss => (s.describes inLoop).seq (stmts_describes inLoop (s' :: ss))
theorem elifs_describes (inLoop : Bool) {otherwise : Ways} {a : Ends}
    (hotherwise : Describes otherwise a) :
    ∀ cs : List Elif, Describes (elifsWays inLoop otherwise cs) (elifsEnds inLoop a cs)
  | [] => hotherwise
  | .mk c body :: rest => (c.describes inLoop).seq
    ((stmts_describes inLoop body).either (elifs_describes inLoop hotherwise rest))
theorem else_describes (inLoop : Bool) :
    ∀ b : Option (List Stmt), Describes (elseWays inLoop b) (elseEnds inLoop b)
  | none => .done
  | some body => stmts_describes inLoop body
end

/-- The values that some ways can have. -/
def Values (P : Ways) (ids : List Nat) : Prop := ∀ id, P (.next (some id)) → id ∈ ids

theorem Values.seq {ids : List Nat} (hQ : Values Q ids) : Values (.seq P Q) ids :=
  fun id h => hQ id h.2

theorem Values.either {ids : List Nat} (hP : Values P ids) (hQ : Values Q ids) :
    Values (.either P Q) ids := fun id h => h.elim (hP id) (hQ id)

theorem Values.drop (ids : List Nat) : Values (.drop P) ids := fun id h => by cases h.1

theorem Values.done (ids : List Nat) : Values .done ids := fun id h => by cases h

theorem Values.valued (id : Nat) : Values (· = .next (some id)) [id] := fun _ h => by
  cases h
  exact List.mem_singleton_self id

theorem Values.returned {ids : List Nat} : Values (· = .returned true) ids := fun id h => by cases h

theorem Values.mono {ids ids' : List Nat} (hP : Values P ids) (hsub : ids ⊆ ids') : Values P ids' :=
  fun id h => hsub (hP id h)

theorem exprs_values (inLoop : Bool) : ∀ es : List Expr, Values (exprsWays inLoop es) []
  | [] => .done _
  | _ :: es => .seq (exprs_values inLoop es)

mutual
/-- What is the value of a statement at the end of a body is unified with the return type. -/
theorem Stmt.values (inLoop : Bool) : ∀ s : Stmt, Values (s.ways inLoop) (checkTailReturn s)
  | .exprStmt e => .seq (.valued e.id)
  | .ret none => fun id h => by cases h
  | .ret (some e) => .seq .returned
  | .ifStmt c thenBody elifClauses none => .seq (.drop _)
  | .ifStmt c thenBody elifClauses (some elseBody) => by
    refine .seq ?_
    cases hempty : elseBody.isEmpty with
    | true => simpa [Ways.keepIf, hempty] using Values.drop _
    | false =>
      have hthen := stmts_values inLoop thenBody
      have hother := elifs_values inLoop (stmts_values inLoop elseBody) elifClauses
      have hall : Values (.either (stmtsWays inLoop thenBody)
          (elifsWays inLoop (stmtsWays inLoop elseBody) elifClauses))
          (tailOfLast thenBody ++ tailOfElifs elifClauses ++ tailOfLast elseBody) :=
        (hthen.mono fun id h => by simp [h]).either (hother.mono fun id h => by
          rw [List.append_assoc]
          exact List.mem_append_right _ h)
      simpa [Ways.keepIf, checkTailReturn, elseWays, hempty] using hall
  | .whileStmt c body elseBody => .drop _
  | .forStmt iter body elseBody => .seq (.drop _)
  | .withStmt items body => .seq (.drop _)
  | .unsafeBlock body => stmts_values inLoop body
  | .breakStmt => by
    cases inLoop with
    | true => exact fun id h => by cases h
    | false => exact .done _
  | .continueStmt => by
    cases inLoop with
    | true => exact fun id h => by cases h
    | false => exact .done _
  | .other exprs => exprs_values inLoop exprs
theorem stmts_values (inLoop : Bool) :
    ∀ ss : List Stmt, Values (stmtsWays inLoop ss) (tailOfLast ss)
  | [] => .done _
  | [s] => s.values inLoop
  | _ :: s' :: ss => .seq (stmts_values inLoop (s' :: ss))
theorem elifs_values (inLoop : Bool) {otherwise : Ways} {ids : List Nat}
    (hotherwise : Values otherwise ids) :
    ∀ cs : List Elif, Values (elifsWays inLoop otherwise cs) (tailOfElifs cs ++ ids)
  | [] => hotherwise
  | .mk c body :: rest => by
    have hbody := stmts_values inLoop body
    have hrest := elifs_values inLoop hotherwise rest
    refine .seq ((hbody.mono fun id h => ?_).either (hrest.mono fun id h => ?_))
    · simp [tailOfElifs, h]
    · rw [tailOfElifs, List.append_assoc]
      exact List.mem_append_right _ h
end

/-- Ways to a `return` without a value have one. -/
def BareIn (a : Ends) (returnsNull : Bool) : Prop := a.bare = true → returnsNull = true

variable {x y z : Bool}

theorem BareIn.done (x : Bool) : BareIn .done x := fun h => by cases h

theorem BareIn.seq (hx : BareIn a x) (hy : BareIn b y) : BareIn (.seq a b) (x || y) := by
  intro h
  simp only [Ends.seq, Bool.or_eq_true, Bool.and_eq_true] at h ⊢
  exact h.imp hx fun h => hy h.2

theorem BareIn.either (hx : BareIn a x) (hy : BareIn b y) : BareIn (.either a b) (x || y) := by
  intro h
  simp only [Ends.either, Bool.or_eq_true] at h ⊢
  exact h.imp hx hy

theorem BareIn.keepIf (valued : Bool) (hx : BareIn a x) : BareIn (.keepIf valued a) x := by
  cases valued with
  | false => exact hx
  | true => exact hx

theorem BareIn.loop (hx : BareIn a x) (hy : BareIn b y) (hz : BareIn c z) :
    BareIn (.loop a b c) (x || (y || z)) := by
  intro h
  simp only [Ends.loop, Bool.or_eq_true, Bool.and_eq_true] at h ⊢
  rcases h with h | ⟨_, h | h⟩
  · exact .inl (hx h)
  · exact .inr (.inr (hz h))
  · exact .inr (.inl (hy h))

theorem BareIn.or_false (hx : BareIn a (x || false)) : BareIn a x := by
  rwa [Bool.or_false] at hx

theorem bareIn_ite (inLoop : Bool) (ha : BareIn a x) (hb : BareIn b x) :
    BareIn (if inLoop then a else b) x := by
  cases inLoop with
  | true => exact ha
  | false => exact hb

mutual
theorem Expr.bareIn (inLoop : Bool) : ∀ e : Expr, BareIn (e.ends inLoop) e.returnsNull
  | .node _ operands skippable => (exprs_bareIn inLoop operands).seq (skippable_bareIn inLoop skippable)
  | .ternary _ c a b => (c.bareIn inLoop).seq ((a.bareIn inLoop).either (b.bareIn inLoop))
  | .asyncBlock _ body => stmts_bareIn inLoop body
  | .matchCases _ scrutinee guards bodies exhaustive =>
    (scrutinee.bareIn inLoop).seq ((skippable_bareIn inLoop guards).seq
      (BareIn.or_false ((bodies_bareIn inLoop bodies).either (bareIn_ite exhaustive id id))))
theorem exprs_bareIn (inLoop : Bool) :
    ∀ es : List Expr, BareIn (exprsEnds inLoop es) (exprsReturnNull es)
  | [] => id
  | e :: es => (e.bareIn inLoop).seq (exprs_bareIn inLoop es)
theorem skippable_bareIn (inLoop : Bool) :
    ∀ es : List Expr, BareIn (skippableEnds inLoop es) (exprsReturnNull es)
  | [] => id
  | e :: es => BareIn.seq (e.bareIn inLoop) (skippable_bareIn inLoop es)
theorem bodies_bareIn (inLoop : Bool) :
    ∀ bs : List (List Stmt), BareIn (bodiesEnds inLoop bs) (bodiesReturnNull bs)
  | [] => id
  | b :: bs => (stmts_bareIn inLoop b).either (bodies_bareIn inLoop bs)
theorem Stmt.bareIn (inLoop : Bool) : ∀ s : Stmt, BareIn (s.ends inLoop) s.returnsNull
  | .exprStmt e => BareIn.or_false ((e.bareIn inLoop).seq id)
  | .ret none => fun _ => rfl
  | .ret (some e) => BareIn.or_false ((e.bareIn inLoop).seq id)
  | .ifStmt c thenBody elifClauses elseBody =>
    (c.bareIn inLoop).seq (((stmts_bareIn inLoop thenBody).either
      (elifs_bareIn inLoop (else_bareIn inLoop elseBody) elifClauses)).keepIf _)
  | .whileStmt c body elseBody =>
    (c.bareIn inLoop).loop (stmts_bareIn true body) (else_bareIn inLoop elseBody)
  | .forStmt iter body elseBody => (iter.bareIn inLoop).seq
    (BareIn.loop (.done false) (stmts_bareIn true body) (else_bareIn inLoop elseBody))
  | .withStmt items body => (exprs_bareIn inLoop items).seq (stmts_bareIn inLoop body)
  | .unsafeBlock body => stmts_bareIn inLoop body
  | .breakStmt => bareIn_ite inLoop id id
  | .continueStmt => bareIn_ite inLoop id id
  | .other exprs => exprs_bareIn inLoop exprs
theorem stmts_bareIn (inLoop : Bool) :
    ∀ ss : List Stmt, BareIn (stmtsEnds inLoop ss) (stmtsReturnNull ss)
  | [] => id
  | [s] => by
    have hs := s.bareIn inLoop
    rwa [← Bool.or_false s.returnsNull] at hs
  | s :: s' :: ss => (s.bareIn inLoop).seq (stmts_bareIn inLoop (s' :: ss))
theorem elifs_bareIn (inLoop : Bool) {otherwise : Ends} {x : Bool} (hx : BareIn otherwise x) :
    ∀ cs : List Elif, BareIn (elifsEnds inLoop otherwise cs) (elifsReturnNull cs || x)
  | [] => hx
  | .mk c body :: rest => by
    have hrest := elifs_bareIn inLoop hx rest
    have hall := (c.bareIn inLoop).seq ((stmts_bareIn inLoop body).either hrest)
    rwa [← Bool.or_assoc, ← Bool.or_assoc, Bool.or_assoc c.returnsNull] at hall
theorem else_bareIn (inLoop : Bool) :
    ∀ b : Option (List Stmt), BareIn (elseEnds inLoop b) (elseReturnsNull b)
  | none => id
  | some body => stmts_bareIn inLoop body
end

/-- What follows a statement that leaves on all its ways counts for nothing. Of the rest, no way to
the end of the body ends in anything but an expression statement, and no `return` without a value is
on a way through it. -/
def Covered (unifiesNull : Bool) (body : List Stmt) : Prop :=
  (stmtsEnds false body).plain = false ∧ (unifiesNull = true → (stmtsEnds false body).bare = false)

theorem produces_iff_ends (body : List Stmt) : Produces body ↔
    (stmtsEnds false body).plain = false ∧ (stmtsEnds false body).bare = false := by
  have hd := stmts_describes false body
  constructor
  · intro hp
    constructor
    · rw [← Bool.not_eq_true, hd.plain]
      intro hway
      obtain ⟨_, hvalue, _⟩ := hp _ hway
      cases hvalue
    · rw [← Bool.not_eq_true, hd.bare]
      intro hway
      cases hp _ hway
  · rintro ⟨hplain, hbare⟩ o hway
    cases o with
    | next value =>
      cases value with
      | none => simp [hd.plain.mpr hway] at hplain
      | some id => exact ⟨id, rfl, stmts_values false body id hway⟩
    | returned value =>
      cases value with
      | false => simp [hd.bare.mpr hway] at hbare
      | true => rfl
    | _ => trivial

/-- When the functions that the checker accepts return a value, and when a body with a way off its
end is rejected. -/
theorem returns_iff_covered (unifiesNull : Bool) (body : List Stmt) :
    (Accepts unifiesNull body → (Produces body ↔ Covered unifiesNull body)) ∧
      ((stmtsWays false body (.next none) → missingReturn true .value body = true) ↔
        (stmtsEnds false body).plain = false ∨ anyReturns body = false) := by
  constructor
  · intro hacc
    rw [produces_iff_ends, Covered]
    refine and_congr_right fun _ => ⟨fun h _ => h, fun h => ?_⟩
    cases hnull : unifiesNull with
    | true => exact h hnull
    | false =>
      rw [← Bool.not_eq_true]
      intro hbare
      have hnull' := hacc.bareReturns (stmts_bareIn false body hbare)
      rw [hnull] at hnull'
      cases hnull'
  · rw [← (stmts_describes false body).plain]
    cases hplain : (stmtsEnds false body).plain with
    | false => simp
    | true =>
      cases hany : anyReturns body with
      | true => simp [missingReturn, hany]
      | false => simp [missingReturn, hany]

/-- if c: return 1 else: 2 -/
def ifElseBody : List Stmt :=
  [.ifStmt (.node 0 [] []) [.ret (some (.node 1 [] []))] [] (some [.exprStmt (.node 2 [] [])])]

theorem ifElse_returns : Produces ifElseBody := by
  have hacc : Accepts false ifElseBody := ⟨by decide, fun h => by cases h⟩
  exact ((returns_iff_covered false ifElseBody).1 hacc).mpr ⟨by decide, fun h => by cases h⟩

/-- An expression statement anywhere passes for a `return`: `print(1)`, then `let y = 2`. -/
theorem call_before_let_accepted : ¬ ∀ unifiesNull body, Accepts unifiesNull body → Produces body := by
  intro hclaim
  have hp := hclaim false [.exprStmt (.node 0 [] []), .other [.node 1 [] []]]
    ⟨by decide, fun h => by cases h⟩
  have hcovered := (produces_iff_ends _).mp hp
  exact absurd hcovered.1 (by decide)

end TailReturn

end Olive
