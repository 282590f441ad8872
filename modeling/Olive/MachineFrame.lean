import Olive.Machine

/-! What a statement reads and writes, that it does not depend on anything else, and runs of
statements and terminators. -/

namespace Olive

open Lockstep

def StatementKind.evaluated : StatementKind → List Operand
  | .assign _ rval => rval.inputs
  | kind => kind.stored

/-- The locals whose values a statement depends on. -/
def Statement.reads (stmt : Statement) : List Local :=
  match stmt.kind with
  | .drop l => [l]
  | .genCheck value generation => [value, generation]
  | kind => kind.evaluated.filterMap Operand.local?

/-- The locals a statement zeroes: those it moves out or drops. -/
def Statement.clears (stmt : Statement) : List Local :=
  match stmt.kind with
  | .drop l => [l]
  | kind => kind.evaluated.filterMap Operand.moved?

def TerminatorKind.reads : TerminatorKind → List Local
  | .switchInt discr _ _ => discr.local?.toList
  | .ret => [0]
  | _ => []

def TerminatorKind.clears : TerminatorKind → List Local
  | .switchInt discr _ _ => discr.moved?.toList
  | _ => []

/-- What the statement or terminator at a place reads. -/
def MirFunction.readsAt (f : MirFunction) (bb : BasicBlockId) (idx : Nat) : List Local :=
  match (f.stmtsAt bb)[idx]? with
  | some stmt => stmt.reads
  | none => (f.terminatorAt bb).elim [] (·.kind.reads)

def MirFunction.clearsAt (f : MirFunction) (bb : BasicBlockId) (idx : Nat) : List Local :=
  match (f.stmtsAt bb)[idx]? with
  | some stmt => stmt.clears
  | none => (f.terminatorAt bb).elim [] (·.kind.clears)

/-- The same values in all locals outside `S`. -/
def AgreeOff (S : Local → Prop) (u v : Local → Val) : Prop := ∀ x, ¬S x → u x = v x

variable {W : Type} {rt : Runtime W} {decls : List LocalDecl} {S : Local → Prop}

theorem AgreeOff.weaken {S' : Local → Prop} {u v : Local → Val} (h : AgreeOff S u v)
    (hle : ∀ x, S x → S' x) : AgreeOff S' u v :=
  fun x hx => h x fun hs => hx (hle x hs)

theorem AgreeOff.set {u v : Local → Val} (h : AgreeOff S u v) (l : Local) (val : Val) :
    AgreeOff (fun x => S x ∧ x ≠ l) (setLocal u l val) (setLocal v l val) := by
  intro x hx
  unfold setLocal
  by_cases hxl : x = l
  · simp [hxl]
  · rw [if_neg hxl, if_neg hxl]
    exact h x fun hs => hx ⟨hs, hxl⟩

theorem setLocal_of_ne {u : Local → Val} {l x : Local} (v : Val) (h : x ≠ l) :
    setLocal u l v x = u x := if_neg h

@[simp] theorem setLocal_self (u : Local → Val) (l : Local) (v : Val) : setLocal u l v l = v :=
  if_pos rfl

section Operands

variable (rt) in
theorem evalOperand_agrees {u v : Local → Val} (h : AgreeOff S u v) {op : Operand}
    (hop : ∀ x, op.local? = some x → ¬S x) :
    (rt.evalOperand u op).1 = (rt.evalOperand v op).1 ∧
      AgreeOff S (rt.evalOperand u op).2 (rt.evalOperand v op).2 := by
  cases op with
  | copy l => exact ⟨h l (hop l rfl), h⟩
  | const c => exact ⟨rfl, h⟩
  | move l =>
    have hl := h l (hop l rfl)
    refine ⟨hl, ?_⟩
    simp only [Runtime.evalOperand, hl]
    exact (h.set l (v l).zeroed).weaken fun x hx => hx.1

variable (rt) in
theorem evalOperands_agrees (ops : List Operand) {u v : Local → Val} (h : AgreeOff S u v)
    (hops : ∀ op ∈ ops, ∀ x, op.local? = some x → ¬S x) :
    (rt.evalOperands u ops).1 = (rt.evalOperands v ops).1 ∧
      AgreeOff S (rt.evalOperands u ops).2 (rt.evalOperands v ops).2 := by
  induction ops generalizing u v with
  | nil => exact ⟨rfl, h⟩
  | cons op ops ih =>
    obtain ⟨hval, hag⟩ := evalOperand_agrees rt h (hops op List.mem_cons_self)
    obtain ⟨hvals, hag'⟩ := ih hag fun op' hmem => hops op' (List.mem_cons_of_mem _ hmem)
    refine ⟨?_, hag'⟩
    simp only [Runtime.evalOperands, hval, hvals]

theorem evalOperand_frame {u : Local → Val} {op : Operand} {x : Local} (h : op.moved? ≠ some x) :
    (rt.evalOperand u op).2 x = u x := by
  cases op with
  | move l => exact setLocal_of_ne _ fun he => h (by rw [he]; rfl)
  | _ => rfl

theorem evalOperands_frame (ops : List Operand) {u : Local → Val} {x : Local}
    (h : ∀ op ∈ ops, op.moved? ≠ some x) : (rt.evalOperands u ops).2 x = u x := by
  induction ops generalizing u with
  | nil => rfl
  | cons op ops ih =>
    have hrest := @ih (rt.evalOperand u op).2 fun op' hmem => h op' (List.mem_cons_of_mem _ hmem)
    exact hrest.trans (evalOperand_frame (h op List.mem_cons_self))

theorem evalOperand_of_not_moved {op : Operand} (h : op.moved? = none) (u : Local → Val) :
    (rt.evalOperand u op).2 = u := by
  cases op with
  | move l => simp [Operand.moved?] at h
  | copy l => rfl
  | const c => rfl

/-- Without moves, evaluation leaves the variables alone and reads them one by one. -/
theorem evalOperands_of_not_moved (ops : List Operand) (u : Local → Val)
    (h : ∀ op ∈ ops, op.moved? = none) :
    rt.evalOperands u ops = (ops.map fun op => (rt.evalOperand u op).1, u) := by
  induction ops with
  | nil => rfl
  | cons op ops ih =>
    have hu := @evalOperand_of_not_moved _ rt _ (h op List.mem_cons_self) u
    have hrest := ih fun op' hmem => h op' (List.mem_cons_of_mem _ hmem)
    simp only [Runtime.evalOperands, hu, hrest, List.map_cons]

/-- Values are the same where the operands' locals are. -/
theorem evalOperands_congr (ops : List Operand) {u v : Local → Val}
    (h : ∀ op ∈ ops, ∀ l, op.local? = some l → u l = v l) :
    (rt.evalOperands u ops).1 = (rt.evalOperands v ops).1 := by
  have hoff : AgreeOff (fun l => u l ≠ v l) u v := fun l hl => by simpa using hl
  exact (evalOperands_agrees rt ops hoff fun op hop l hl hne => hne (h op hop l hl)).1

end Operands

section Assignments

/-- Operations whose result depends on their operands alone. -/
def Instr.isPure : Instr → Bool
  | .move | .binary _ _ | .unary _ => true
  | _ => false

theorem eval_pure {instr : Instr} (hp : instr.isPure = true) {vals : List Val} {w w₁ : World W}
    {v : Val} (h : instr.eval rt vals w = .ok (v, w₁)) (w' : World W) :
    instr.eval rt vals w' = .ok (v, w') := by
  have hmap : ∀ {α : Type} (r : Except Fault α) (g : α → Val),
      r.map (fun a => (g a, w)) = .ok (v, w₁) → r.map (fun a => (g a, w')) = .ok (v, w') := by
    intro α r g hr
    cases r with
    | error e => simp [Except.map] at hr
    | ok a =>
      simp only [Except.map, Except.ok.injEq, Prod.mk.injEq] at hr ⊢
      exact ⟨hr.1, trivial⟩
  unfold Instr.eval at h ⊢
  split at h
  next u => simp only [Except.ok.injEq, Prod.mk.injEq] at h ⊢; exact ⟨h.1, trivial⟩
  next op unsigned l r => exact hmap _ _ h
  next op u => simp only [Except.ok.injEq, Prod.mk.injEq] at h ⊢; exact ⟨h.1, trivial⟩
  all_goals simp [Instr.isPure] at hp h

theorem runAssign_ok {s s' : State W} {dst : Local} {rval : Rvalue}
    (h : rt.runAssign decls s dst rval = .ok s') :
    ∃ v w, (lower decls rval).eval rt (rt.evalOperands s.locals rval.inputs).1 s.world = .ok (v, w) ∧
      s' = ⟨setLocal (rt.evalOperands s.locals rval.inputs).2 dst (rt.fit (tyOf decls dst) v), w,
        s.log ++ Runtime.callEvents rval (rt.evalOperands s.locals rval.inputs).1⟩ := by
  unfold Runtime.runAssign at h
  cases he : (lower decls rval).eval rt (rt.evalOperands s.locals rval.inputs).1 s.world with
  | error e => simp [he, Except.map] at h
  | ok r =>
    simp only [he, Except.map, Except.ok.injEq] at h
    exact ⟨r.1, r.2, rfl, h.symm⟩

end Assignments

/-- Two results that differ in locals of `S` at most, past the same additions to the logs. -/
def SameResult (S : Local → Prop) (log log' : List Event) :
    Except Fault (State W) → Except Fault (State W) → Prop
  | .ok s, .ok t => AgreeOff S s.locals t.locals ∧ s.world = t.world ∧
      ∃ new, s.log = log ++ new ∧ t.log = log' ++ new
  | .error e, .error e' => e = e'
  | _, _ => False

theorem SameResult.cases {log log' : List Event} {a b : Except Fault (State W)}
    (h : SameResult S log log' a b) :
    (∃ s t new, a = .ok s ∧ b = .ok t ∧ AgreeOff S s.locals t.locals ∧ s.world = t.world ∧
      s.log = log ++ new ∧ t.log = log' ++ new) ∨ ∃ e, a = .error e ∧ b = .error e := by
  cases a with
  | error e =>
    cases b with
    | error e' => exact .inr ⟨e, rfl, congrArg Except.error (Eq.symm h)⟩
    | ok t => exact h.elim
  | ok s =>
    cases b with
    | error e' => exact h.elim
    | ok t =>
      obtain ⟨hag, hw, new, hs, ht⟩ := h
      exact .inl ⟨s, t, new, rfl, rfl, hag, hw, hs, ht⟩

variable (rt decls) in
/-- States that agree on what a statement reads agree after it, now also on what it assigns. -/
theorem execStmt_agrees {s t : State W} {stmt : Statement} (h : AgreeOff S s.locals t.locals)
    (hw : s.world = t.world) (hreads : ∀ x ∈ stmt.reads, ¬S x) :
    SameResult (fun x => S x ∧ stmt.dst? ≠ some x) s.log t.log (rt.execStmt decls s stmt)
      (rt.execStmt decls t stmt) := by
  have hops : ∀ ops : List Operand, (∀ x ∈ ops.filterMap Operand.local?, ¬S x) →
      ∀ op ∈ ops, ∀ x, op.local? = some x → ¬S x := fun ops hall op hop x hx =>
    hall x (List.mem_filterMap.mpr ⟨op, hop, hx⟩)
  have hstore : (∀ x ∈ stmt.kind.stored.filterMap Operand.local?, ¬S x) →
      SameResult S s.log t.log (rt.runStore decls s stmt.kind) (rt.runStore decls t stmt.kind) := by
    intro hall
    obtain ⟨hvals, hag⟩ := evalOperands_agrees rt stmt.kind.stored h (hops _ hall)
    simp only [Runtime.runStore, hvals, hw]
    cases (lowerStore decls stmt.kind).exec rt (rt.evalOperands t.locals stmt.kind.stored).1
      t.world with
    | error e => rfl
    | ok w => exact ⟨hag, rfl, _, rfl, rfl⟩
  have hsame : ∀ a b : Except Fault (State W), stmt.dst? = none → SameResult S s.log t.log a b →
      SameResult (fun x => S x ∧ stmt.dst? ≠ some x) s.log t.log a b := by
    intro a b hd hab
    simpa [hd] using hab
  cases hk : stmt.kind with
  | assign dst rval =>
    have hdst : stmt.dst? = some dst := Statement.dst?_eq_some.mpr ⟨rval, hk⟩
    have hall : ∀ x ∈ rval.inputs.filterMap Operand.local?, ¬S x := by
      simpa only [Statement.reads, hk, StatementKind.evaluated] using hreads
    obtain ⟨hvals, hag⟩ := evalOperands_agrees rt rval.inputs h (hops _ hall)
    simp only [Runtime.execStmt, hk, Runtime.runAssign, hvals, hw, hdst]
    cases (lower decls rval).eval rt (rt.evalOperands t.locals rval.inputs).1 t.world with
    | error e => rfl
    | ok r =>
      refine ⟨?_, rfl, _, rfl, rfl⟩
      refine (hag.set dst _).weaken ?_
      exact fun x hx => ⟨hx.1, fun he => hx.2 (Option.some.inj he).symm⟩
  | drop l =>
    have hl : ¬S l := hreads l (by simp [Statement.reads, hk])
    refine hsame _ _ (by simp [Statement.dst?, hk]) ?_
    simp only [Runtime.execStmt, hk, Runtime.runDrop]
    split
    · refine ⟨(h.set l _).weaken fun x hx => hx.1, ?_, [], by simp⟩
      simp only [h l hl, hw]
    · exact ⟨h, hw, [], by simp⟩
  | genCheck value generation =>
    have hv : ¬S value := hreads value (by simp [Statement.reads, hk])
    have hg : ¬S generation := hreads generation (by simp [Statement.reads, hk])
    refine hsame _ _ (by simp [Statement.dst?, hk]) ?_
    simp only [Runtime.execStmt, hk, h value hv, h generation hg, hw]
    split
    · rfl
    · exact ⟨h, hw, [], by simp⟩
  | storageLive l =>
    refine hsame _ _ (by simp [Statement.dst?, hk]) ?_
    simp only [Runtime.execStmt, hk]
    exact ⟨h, hw, [], by simp⟩
  | storageDead l =>
    refine hsame _ _ (by simp [Statement.dst?, hk]) ?_
    simp only [Runtime.execStmt, hk]
    exact ⟨h, hw, [], by simp⟩
  | setAttr obj attr val =>
    refine hsame _ _ (by simp [Statement.dst?, hk]) ?_
    simpa only [Runtime.execStmt, hk] using
      hstore (by simpa only [Statement.reads, hk, StatementKind.evaluated] using hreads)
  | setIndex obj idx val unchecked =>
    refine hsame _ _ (by simp [Statement.dst?, hk]) ?_
    simpa only [Runtime.execStmt, hk] using
      hstore (by simpa only [Statement.reads, hk, StatementKind.evaluated] using hreads)
  | vectorStore obj idx val =>
    refine hsame _ _ (by simp [Statement.dst?, hk]) ?_
    simpa only [Runtime.execStmt, hk] using
      hstore (by simpa only [Statement.reads, hk, StatementKind.evaluated] using hreads)
  | ptrStore ptr val =>
    refine hsame _ _ (by simp [Statement.dst?, hk]) ?_
    simpa only [Runtime.execStmt, hk] using
      hstore (by simpa only [Statement.reads, hk, StatementKind.evaluated] using hreads)

/-- What a statement neither assigns, moves out nor drops keeps its value. -/
theorem execStmt_frame {s s' : State W} {stmt : Statement}
    (h : rt.execStmt decls s stmt = .ok s') {x : Local} (hdst : stmt.dst? ≠ some x)
    (hclear : x ∉ stmt.clears) : s'.locals x = s.locals x := by
  have hmoved : ∀ ops : List Operand, x ∉ ops.filterMap Operand.moved? →
      ∀ op ∈ ops, op.moved? ≠ some x := fun ops hn op hop he =>
    hn (List.mem_filterMap.mpr ⟨op, hop, he⟩)
  have hstore : x ∉ stmt.kind.stored.filterMap Operand.moved? →
      rt.runStore decls s stmt.kind = .ok s' → s'.locals x = s.locals x := by
    intro hn hrun
    simp only [Runtime.runStore] at hrun
    cases hw : (lowerStore decls stmt.kind).exec rt (rt.evalOperands s.locals stmt.kind.stored).1
      s.world with
    | error e => simp [hw, Except.map] at hrun
    | ok w =>
      simp only [hw, Except.map, Except.ok.injEq] at hrun
      subst hrun
      exact evalOperands_frame _ (hmoved _ hn)
  cases hk : stmt.kind with
  | assign dst rval =>
    simp only [Runtime.execStmt, hk, Runtime.runAssign] at h
    cases hr : (lower decls rval).eval rt (rt.evalOperands s.locals rval.inputs).1 s.world with
    | error e => simp [hr, Except.map] at h
    | ok r =>
      simp only [hr, Except.map, Except.ok.injEq] at h
      subst h
      have hne : x ≠ dst := fun he => hdst (Statement.dst?_eq_some.mpr ⟨rval, he ▸ hk⟩)
      have hn : x ∉ rval.inputs.filterMap Operand.moved? := by
        simpa only [Statement.clears, hk, StatementKind.evaluated] using hclear
      exact (setLocal_of_ne _ hne).trans (evalOperands_frame _ (hmoved _ hn))
  | drop l =>
    simp only [Runtime.execStmt, hk, Except.ok.injEq] at h
    have hne : x ≠ l := by simpa [Statement.clears, hk] using hclear
    rw [← h, Runtime.runDrop]
    split
    · exact setLocal_of_ne _ hne
    · rfl
  | genCheck value generation =>
    simp only [Runtime.execStmt, hk] at h
    split at h
    · simp at h
    · rw [← Except.ok.inj h]
  | storageLive l =>
    simp only [Runtime.execStmt, hk, Except.ok.injEq] at h
    rw [← h]
  | storageDead l =>
    simp only [Runtime.execStmt, hk, Except.ok.injEq] at h
    rw [← h]
  | setAttr obj attr val =>
    exact hstore (by simpa only [Statement.clears, hk, StatementKind.evaluated] using hclear)
      (by simpa only [Runtime.execStmt, hk] using h)
  | setIndex obj idx val unchecked =>
    exact hstore (by simpa only [Statement.clears, hk, StatementKind.evaluated] using hclear)
      (by simpa only [Runtime.execStmt, hk] using h)
  | vectorStore obj idx val =>
    exact hstore (by simpa only [Statement.clears, hk, StatementKind.evaluated] using hclear)
      (by simpa only [Runtime.execStmt, hk] using h)
  | ptrStore ptr val =>
    exact hstore (by simpa only [Statement.clears, hk, StatementKind.evaluated] using hclear)
      (by simpa only [Runtime.execStmt, hk] using h)

theorem execStmt_copy {s : State W} {stmt : Statement} {dest src : Local}
    (hk : stmt.kind = .assign dest (.use (.copy src))) : rt.execStmt decls s stmt =
      .ok ⟨setLocal s.locals dest (rt.fit (tyOf decls dest) (s.locals src)), s.world, s.log⟩ := by
  simp only [Runtime.execStmt, hk, Runtime.runAssign, Rvalue.inputs, Rvalue.operands, lower,
    Runtime.evalOperands, Runtime.evalOperand, Instr.eval, Except.map, Runtime.callEvents,
    List.append_nil]

/-- The locals a statement zeroes. -/
def Statement.zeroes (decls : List LocalDecl) (stmt : Statement) : List Local :=
  match stmt.kind with
  | .drop l => if (tyOf decls l).needsDrop then [l] else []
  | kind => kind.evaluated.filterMap Operand.moved?

theorem execStmt_keeps {decls : List LocalDecl} {s s' : State W} {stmt : Statement}
    (h : rt.execStmt decls s stmt = .ok s') {x : Local} (hdst : stmt.dst? ≠ some x)
    (hzero : x ∉ stmt.zeroes decls) : s'.locals x = s.locals x := by
  by_cases hclear : x ∈ stmt.clears
  · cases hk : stmt.kind with
    | drop l =>
      have hl : x = l := by simpa [Statement.clears, hk] using hclear
      subst hl
      have hno : (tyOf decls x).needsDrop = false := by
        cases hn : (tyOf decls x).needsDrop with
        | false => rfl
        | true => simp [Statement.zeroes, hk, hn] at hzero
      simp only [Runtime.execStmt, hk, Runtime.runDrop, hno, Except.ok.injEq] at h
      rw [← h]
      rfl
    | _ =>
      simp only [Statement.clears, Statement.zeroes, hk] at hclear hzero
      exact absurd hclear hzero
  · exact execStmt_frame h hdst hclear

section Terminators

variable (rt decls) in
/-- Where a terminator goes from states that agree on what it reads. -/
theorem execTerm_agrees {s t : State W} {term : Option Terminator} (h : AgreeOff S s.locals t.locals)
    (hw : s.world = t.world)
    (hreads : ∀ tm, term = some tm → ∀ x ∈ tm.kind.reads, ¬S x) :
    (∃ bb s' t', rt.execTerm decls s term = .inl (bb, s') ∧ rt.execTerm decls t term = .inl (bb, t') ∧
      AgreeOff S s'.locals t'.locals ∧ s'.world = s.world ∧ t'.world = t.world ∧ s'.log = s.log ∧
        t'.log = t.log) ∨
      (∃ v, rt.execTerm decls s term = .inr (.returned v s.world s.log) ∧
        rt.execTerm decls t term = .inr (.returned v t.world t.log)) ∨
      ∃ e, rt.execTerm decls s term = .inr (.faulted e s.world s.log) ∧
        rt.execTerm decls t term = .inr (.faulted e t.world t.log) := by
  cases term with
  | none => exact .inr (.inl ⟨_, rfl, rfl⟩)
  | some tm =>
    obtain ⟨kind, span⟩ := tm
    have hkind := hreads _ rfl
    cases kind with
    | goto target => exact .inl ⟨target, s, t, rfl, rfl, h, rfl, rfl, rfl, rfl⟩
    | switchInt discr targets otherwise =>
      have hop : ∀ x, discr.local? = some x → ¬S x := by
        intro x hx
        exact hkind x (by simp [TerminatorKind.reads, hx])
      obtain ⟨hval, hag⟩ := evalOperand_agrees rt h hop
      refine .inl ⟨_, ⟨(rt.evalOperand s.locals discr).2, s.world, s.log⟩,
        ⟨(rt.evalOperand t.locals discr).2, t.world, t.log⟩, rfl, ?_, hag, rfl, rfl, rfl, rfl⟩
      simp only [Runtime.execTerm, hval, hw]
    | ret =>
      have hzero : ¬S 0 := hkind 0 (by simp [TerminatorKind.reads])
      refine .inr (.inl ⟨s.locals 0, rfl, ?_⟩)
      simp only [Runtime.execTerm, h 0 hzero]
    | unreachable => exact .inr (.inr ⟨.trap, rfl, rfl⟩)

theorem lookup_mem_targets (targets : List (Word × BasicBlockId)) (otherwise : BasicBlockId)
    (c : Word) : (targets.lookup c).getD otherwise ∈ targets.map (·.2) ++ [otherwise] := by
  cases hc : targets.lookup c with
  | none => simp
  | some target =>
    obtain ⟨first, rest, rfl, _⟩ := List.lookup_eq_some_iff.mp hc
    simp

variable (rt) in
theorem switchTarget_mem (isPyObject : Bool) (targets : List (Word × BasicBlockId))
    (otherwise : BasicBlockId) (v : Val) (w : World W) :
    rt.switchTarget isPyObject targets otherwise v w ∈ targets.map (·.2) ++ [otherwise] := by
  have hlookup := lookup_mem_targets targets otherwise
  cases isPyObject with
  | false => exact hlookup v.toWord
  | true =>
    match targets with
    | [(value, target)] =>
      have hpick : ∀ (c : Prop) [Decidable c],
          (if c then target else otherwise) ∈ [(value, target)].map (·.2) ++ [otherwise] := by
        intro c _
        split <;> simp
      exact hpick _
    | [] => exact hlookup (rt.pyToInt v w)
    | first :: second :: rest => exact hlookup (rt.pyToInt v w)

variable (rt) in
theorem switchTarget_map (g : BasicBlockId → BasicBlockId) (isPyObject : Bool)
    (targets : List (Word × BasicBlockId)) (otherwise : BasicBlockId) (v : Val) (w : World W) :
    rt.switchTarget isPyObject (targets.map fun t => (t.1, g t.2)) (g otherwise) v w =
      g (rt.switchTarget isPyObject targets otherwise v w) := by
  have hlookup : ∀ c : Word, ((targets.map fun t => (t.1, g t.2)).lookup c).getD (g otherwise) =
      g ((targets.lookup c).getD otherwise) := by
    intro c
    induction targets with
    | nil => rfl
    | cons t targets ih =>
      obtain ⟨value, target⟩ := t
      simp only [List.map_cons, List.lookup_cons]
      cases c == value with
      | true => rfl
      | false => exact ih
  cases isPyObject with
  | false => exact hlookup v.toWord
  | true =>
    match targets with
    | [(value, target)] => exact (apply_ite g _ _ _).symm
    | [] => exact hlookup (rt.pyToInt v w)
    | first :: second :: rest => exact hlookup (rt.pyToInt v w)

variable (rt) in
theorem execTerm_mapTargets (g : BasicBlockId → BasicBlockId) (s : State W)
    (term : Option Terminator) :
    rt.execTerm decls s (term.map fun t => { t with kind := t.kind.mapTargets g }) =
      (rt.execTerm decls s term).map (fun r => (g r.1, r.2)) id := by
  cases term with
  | none => rfl
  | some t =>
    obtain ⟨kind, span⟩ := t
    cases kind with
    | switchInt discr targets otherwise =>
      simp only [Option.map_some, TerminatorKind.mapTargets, Runtime.execTerm, Sum.map_inl,
        switchTarget_map]
    | _ => rfl

theorem execTerm_target {s s' : State W} {term : Terminator} {bb : BasicBlockId}
    (h : rt.execTerm decls s (some term) = .inl (bb, s')) : bb ∈ term.kind.successors := by
  obtain ⟨kind, span⟩ := term
  cases kind with
  | goto target =>
    simp only [Runtime.execTerm, Sum.inl.injEq, Prod.mk.injEq] at h
    simp [TerminatorKind.successors, h.1]
  | switchInt discr targets otherwise =>
    simp only [Runtime.execTerm, Sum.inl.injEq, Prod.mk.injEq] at h
    rw [← h.1]
    exact switchTarget_mem rt _ _ _ _ _
  | ret => simp [Runtime.execTerm] at h
  | unreachable => simp [Runtime.execTerm] at h

theorem execTerm_frame {s s' : State W} {term : Option Terminator} {bb : BasicBlockId}
    (h : rt.execTerm decls s term = .inl (bb, s')) :
    s'.world = s.world ∧ s'.log = s.log ∧
      ∀ x, (∀ tm, term = some tm → x ∉ tm.kind.clears) → s'.locals x = s.locals x := by
  cases term with
  | none => simp [Runtime.execTerm] at h
  | some tm =>
    obtain ⟨kind, span⟩ := tm
    cases kind with
    | goto target =>
      simp only [Runtime.execTerm, Sum.inl.injEq, Prod.mk.injEq] at h
      rw [← h.2]
      exact ⟨rfl, rfl, fun _ _ => rfl⟩
    | switchInt discr targets otherwise =>
      simp only [Runtime.execTerm, Sum.inl.injEq, Prod.mk.injEq] at h
      rw [← h.2]
      refine ⟨rfl, rfl, ?_⟩
      intro x hx
      apply evalOperand_frame
      intro he
      exact hx _ rfl (by simp [TerminatorKind.clears, he])
    | ret => simp [Runtime.execTerm] at h
    | unreachable => simp [Runtime.execTerm] at h

end Terminators

section Steps

variable {f : MirFunction} {bb : BasicBlockId} {block : BasicBlock} {idx : Nat} {s s' : State W}
  {stmt : Statement}

theorem step_ok (hb : f.basicBlocks[bb]? = some block) (hs : block.statements[idx]? = some stmt)
    (h : rt.execStmt f.locals s stmt = .ok s') :
    rt.step f ⟨bb, idx, s⟩ = .inl ⟨bb, idx + 1, s'⟩ := by
  simp only [Runtime.step, hb, hs, h]

theorem step_error {e : Fault} (hb : f.basicBlocks[bb]? = some block)
    (hs : block.statements[idx]? = some stmt) (h : rt.execStmt f.locals s stmt = .error e) :
    rt.step f ⟨bb, idx, s⟩ = .inr (.faulted e s.world s.log) := by
  simp only [Runtime.step, hb, hs, h]

theorem step_goes {target : BasicBlockId} (hb : f.basicBlocks[bb]? = some block)
    (hs : block.statements[idx]? = none)
    (h : rt.execTerm f.locals s block.terminator = .inl (target, s')) :
    rt.step f ⟨bb, idx, s⟩ = .inl ⟨target, 0, s'⟩ := by
  simp only [Runtime.step, hb, hs, h]

theorem step_ends {o : Outcome W} (hb : f.basicBlocks[bb]? = some block)
    (hs : block.statements[idx]? = none)
    (h : rt.execTerm f.locals s block.terminator = .inr o) :
    rt.step f ⟨bb, idx, s⟩ = .inr o := by
  simp only [Runtime.step, hb, hs, h]

theorem step_no_block (hb : f.basicBlocks[bb]? = none) :
    rt.step f ⟨bb, idx, s⟩ = .inr (.faulted .trap s.world s.log) := by
  simp only [Runtime.step, hb]

/-- Statements one after another. -/
def Runtime.runStmts (rt : Runtime W) (decls : List LocalDecl) (s : State W) :
    List Statement → Except Fault (State W)
  | [] => .ok s
  | stmt :: stmts => (rt.execStmt decls s stmt).bind fun s' => Runtime.runStmts rt decls s' stmts

theorem runStmts_cons {stmts : List Statement} {t : State W}
    (h : rt.runStmts decls s (stmt :: stmts) = .ok t) :
    ∃ s', rt.execStmt decls s stmt = .ok s' ∧ rt.runStmts decls s' stmts = .ok t := by
  unfold Runtime.runStmts at h
  cases hs : rt.execStmt decls s stmt with
  | error e => simp [hs, Except.bind] at h
  | ok s' => exact ⟨s', rfl, by simpa only [hs, Except.bind] using h⟩

theorem runStmts_concat (stmts : List Statement) (t : State W) :
    rt.runStmts decls s (stmts ++ [stmt]) = .ok t ↔
      ∃ s', rt.runStmts decls s stmts = .ok s' ∧ rt.execStmt decls s' stmt = .ok t := by
  induction stmts generalizing s with
  | nil =>
    rw [List.nil_append]
    cases hs : rt.execStmt decls s stmt <;> simp [Runtime.runStmts, Except.bind, hs]
  | cons first stmts ih =>
    rw [List.cons_append]
    simp only [Runtime.runStmts]
    cases rt.execStmt decls s first with
    | error e => simp [Except.bind]
    | ok s' => simpa only [Except.bind] using ih

/-- A block runs its statements from `idx` on. -/
theorem runs_stmts (hb : f.basicBlocks[bb]? = some block)
    (h : rt.runStmts f.locals s (block.statements.drop idx) = .ok s')
    (hidx : idx ≤ block.statements.length) :
    runs (rt.step f) (block.statements.length - idx) ⟨bb, idx, s⟩ =
      .inl ⟨bb, block.statements.length, s'⟩ := by
  obtain ⟨k, hk⟩ := Nat.exists_eq_add_of_le hidx
  induction k generalizing idx s with
  | zero =>
    rw [Nat.add_zero] at hk
    rw [← hk, List.drop_length] at h
    obtain rfl := Except.ok.inj h
    rw [hk, Nat.sub_self]
    rfl
  | succ k ih =>
    have hlt : idx < block.statements.length := by omega
    rw [List.drop_eq_getElem_cons hlt] at h
    obtain ⟨t, ht, hrest⟩ := runStmts_cons h
    have hstep := step_ok hb (List.getElem?_eq_getElem hlt) ht
    rw [show block.statements.length - idx = (block.statements.length - (idx + 1)) + 1 by omega,
      runs_succ_inl hstep]
    exact ih hrest (by omega) (by omega)

end Steps

end Olive
