import Olive.MachineFrame

/-! Passes that replace operands where they stand: what must hold where a run gets for its next step to
stay the same. -/

namespace Olive

open Lockstep

def Rvalue.propagates : Rvalue → Bool
  | .use _ | .unaryOp _ _ | .getAttr _ _ | .binaryOp _ _ _ | .getIndex _ _ _ | .call _ _
  | .aggregate _ _ | .ptrLoad _ | .vectorSplat _ _ | .vectorReduce _ _ _ | .vectorLoad _ _ _
  | .vectorFma _ _ _ => true
  | _ => false

section Rewriting

variable (g : Operand → Operand)

def Rvalue.rewrite (rval : Rvalue) : Rvalue :=
  if rval.propagates then rval.mapOperands g else rval

def StatementKind.rewrite : StatementKind → StatementKind
  | .assign dst rval => .assign dst (rval.rewrite g)
  | .setIndex obj idx val unchecked => .setIndex (g obj) (g idx) (g val) unchecked
  | .setAttr obj attr val => .setAttr (g obj) attr (g val)
  | .vectorStore obj idx val => .vectorStore (g obj) (g idx) (g val)
  | kind => kind

def TerminatorKind.rewrite : TerminatorKind → TerminatorKind
  | .switchInt discr targets otherwise => .switchInt (g discr) targets otherwise
  | kind => kind

def BasicBlock.rewrite (block : BasicBlock) : BasicBlock :=
  ⟨block.statements.map fun stmt => { stmt with kind := stmt.kind.rewrite g },
    block.terminator.map fun term => { term with kind := term.kind.rewrite g }⟩

def MirFunction.rewrite (f : MirFunction) : MirFunction :=
  { f with basicBlocks := f.basicBlocks.map (BasicBlock.rewrite g) }

end Rewriting

/-- The operands of a statement that are replaced. -/
def StatementKind.rewritten : StatementKind → List Operand
  | .assign _ rval => if rval.propagates then rval.operands else []
  | .setIndex obj idx val _ | .vectorStore obj idx val => [obj, idx, val]
  | .setAttr obj _ val => [obj, val]
  | _ => []

def TerminatorKind.rewritten : TerminatorKind → List Operand
  | .switchInt discr _ _ => [discr]
  | _ => []

def MirFunction.rewrittenAt (f : MirFunction) (bb : BasicBlockId) (idx : Nat) : List Operand :=
  match (f.stmtsAt bb)[idx]? with
  | some stmt => stmt.kind.rewritten
  | none => (f.terminatorAt bb).elim [] (·.kind.rewritten)

variable {W : Type} {rt : Runtime W} {f : MirFunction} {decls : List LocalDecl}
  {g : Operand → Operand}

section Rvalues

theorem mapOperands_comp (g g' : Operand → Operand) (rval : Rvalue) :
    (rval.mapOperands g).mapOperands g' = rval.mapOperands fun op => g' (g op) := by
  cases rval <;> simp [Rvalue.mapOperands]

theorem propagates_mapOperands (g : Operand → Operand) (rval : Rvalue) :
    (rval.mapOperands g).propagates = rval.propagates := by
  cases rval <;> rfl

theorem inputs_mapOperands (g : Operand → Operand) {rval : Rvalue} (h : rval.propagates = true) :
    (rval.mapOperands g).inputs = rval.inputs.map g := by
  cases rval <;> first | rfl | simp [Rvalue.propagates] at h

theorem inputs_eq_operands {rval : Rvalue} (h : rval.propagates = true) :
    rval.inputs = rval.operands := by
  cases rval <;> first | rfl | simp [Rvalue.propagates] at h

/-- Calls that codegen emits alike are logged alike. -/
theorem callEvents_of_lower_eq {rval : Rvalue} {g : Operand → Operand}
    (h : lower decls (rval.mapOperands g) = lower decls rval) (vals : List Val) :
    Runtime.callEvents (rval.mapOperands g) vals = Runtime.callEvents rval vals := by
  cases rval with
  | call func args =>
    have hcallee : (Rvalue.call (g func) (args.map g)).callee? = (Rvalue.call func args).callee? := by
      simp only [lower, Rvalue.mapOperands, Instr.runtime.injEq] at h
      exact h.1
    simp only [Runtime.callEvents, Rvalue.mapOperands, hcallee]
  | _ => rfl

end Rvalues

/-- The operands, evaluated one after another, give the same as what replaces them. -/
def SameReads (rt : Runtime W) (g : Operand → Operand) (locals : Local → Val)
    (ops : List Operand) : Prop :=
  ∀ before op after, ops = before ++ op :: after →
    rt.evalOperand (rt.evalOperands locals before).2 (g op) =
      rt.evalOperand (rt.evalOperands locals before).2 op

theorem SameReads.tail {locals : Local → Val} {op : Operand} {ops : List Operand}
    (h : SameReads rt g locals (op :: ops)) : SameReads rt g (rt.evalOperand locals op).2 ops := by
  intro before op' after he
  exact h (op :: before) op' after (by rw [he, List.cons_append])

theorem evalOperands_map {ops : List Operand} {locals : Local → Val}
    (h : SameReads rt g locals ops) :
    rt.evalOperands locals (ops.map g) = rt.evalOperands locals ops := by
  induction ops generalizing locals with
  | nil => rfl
  | cons op ops ih =>
    have hop : rt.evalOperand locals (g op) = rt.evalOperand locals op := h [] op ops rfl
    simp only [List.map_cons, Runtime.evalOperands, hop, ih h.tail]

theorem runAssign_rewrite {s : State W} {dst : Local} {rval : Rvalue}
    (h : rval.propagates = true → SameReads rt g s.locals rval.operands ∧
      lower decls (rval.mapOperands g) = lower decls rval) :
    rt.runAssign decls s dst (rval.rewrite g) = rt.runAssign decls s dst rval := by
  cases hp : rval.propagates with
  | false => simp [Rvalue.rewrite, hp]
  | true =>
    obtain ⟨hreads, hlower⟩ := h hp
    have hinputs : (rval.mapOperands g).inputs = rval.operands.map g := by
      rw [inputs_mapOperands _ hp, inputs_eq_operands hp]
    simp only [Rvalue.rewrite, hp, if_true, Runtime.runAssign, hinputs, inputs_eq_operands hp,
      evalOperands_map hreads, hlower, callEvents_of_lower_eq hlower]

theorem runStore_rewrite {s : State W} {kind kind' : StatementKind}
    (hstored : kind'.stored = kind.stored.map g) (hreads : SameReads rt g s.locals kind.stored)
    (hlower : lowerStore decls kind' = lowerStore decls kind) :
    rt.runStore decls s kind' = rt.runStore decls s kind := by
  simp only [Runtime.runStore, hstored, evalOperands_map hreads, hlower]

/-- Codegen emits the same operation for what is replaced at `p`. -/
structure SameLowering (f : MirFunction) (g : Operand → Operand) (p : Point W) : Prop where
  assign : ∀ stmt dst rval, (f.stmtsAt p.bb)[p.idx]? = some stmt → stmt.kind = .assign dst rval →
    rval.propagates = true → lower f.locals (rval.mapOperands g) = lower f.locals rval
  store : ∀ stmt, (f.stmtsAt p.bb)[p.idx]? = some stmt → stmt.kind.stored ≠ [] →
    lowerStore f.locals (stmt.kind.rewrite g) = lowerStore f.locals stmt.kind
  switch : ∀ discr targets otherwise span,
    f.terminatorAt p.bb = some ⟨.switchInt discr targets otherwise, span⟩ →
    (g discr).isPyObject f.locals = discr.isPyObject f.locals

theorem execStmt_rewrite {p : Point W} {stmt : Statement}
    (hs : (f.stmtsAt p.bb)[p.idx]? = some stmt)
    (hreads : SameReads rt g p.state.locals stmt.kind.rewritten) (hlower : SameLowering f g p) :
    rt.execStmt f.locals p.state { stmt with kind := stmt.kind.rewrite g } =
      rt.execStmt f.locals p.state stmt := by
  have hstore := hlower.store stmt hs
  cases hk : stmt.kind with
  | assign dst rval =>
    simp only [StatementKind.rewrite, Runtime.execStmt, hk]
    apply runAssign_rewrite
    intro hp
    rw [hk, StatementKind.rewritten, if_pos hp] at hreads
    exact ⟨hreads, hlower.assign stmt dst rval hs hk hp⟩
  | setIndex obj idx val unchecked =>
    rw [hk] at hstore hreads
    have hrun := runStore_rewrite rfl hreads (hstore (List.cons_ne_nil _ _))
    simpa only [Runtime.execStmt, StatementKind.rewrite, hk] using hrun
  | setAttr obj attr val =>
    rw [hk] at hstore hreads
    have hrun := runStore_rewrite rfl hreads (hstore (List.cons_ne_nil _ _))
    simpa only [Runtime.execStmt, StatementKind.rewrite, hk] using hrun
  | vectorStore obj idx val =>
    rw [hk] at hstore hreads
    have hrun := runStore_rewrite rfl hreads (hstore (List.cons_ne_nil _ _))
    simpa only [Runtime.execStmt, StatementKind.rewrite, hk] using hrun
  | _ => simp only [StatementKind.rewrite, Runtime.execStmt, hk]

theorem execTerm_rewrite {s : State W} {term : Option Terminator}
    (h : ∀ discr targets otherwise span, term = some ⟨.switchInt discr targets otherwise, span⟩ →
      rt.evalOperand s.locals (g discr) = rt.evalOperand s.locals discr ∧
        (g discr).isPyObject decls = discr.isPyObject decls) :
    rt.execTerm decls s (term.map fun t => { t with kind := t.kind.rewrite g }) =
      rt.execTerm decls s term := by
  cases term with
  | none => rfl
  | some t =>
    obtain ⟨kind, span⟩ := t
    cases kind with
    | switchInt discr targets otherwise =>
      obtain ⟨heval, hclass⟩ := h discr targets otherwise span rfl
      simp only [Option.map_some, TerminatorKind.rewrite, Runtime.execTerm, hclass, heval]
    | _ => rfl

/-- Where what is replaced reads the same and is emitted alike, a step is the same before and after
the pass. -/
theorem step_rewrite {p : Point W}
    (hreads : SameReads rt g p.state.locals (f.rewrittenAt p.bb p.idx))
    (hlower : SameLowering f g p) : rt.step (f.rewrite g) p = rt.step f p := by
  have hblock : (f.rewrite g).basicBlocks[p.bb]? = f.basicBlocks[p.bb]?.map (·.rewrite g) :=
    List.getElem?_map
  have hlocals : (f.rewrite g).locals = f.locals := rfl
  unfold Runtime.step
  rw [hblock, hlocals]
  cases hb : f.basicBlocks[p.bb]? with
  | none => rfl
  | some block =>
    have hstmts : f.stmtsAt p.bb = block.statements := by simp only [MirFunction.stmtsAt, hb]
    have hterm : f.terminatorAt p.bb = block.terminator := by
      simp only [MirFunction.terminatorAt, hb, Option.bind_some]
    simp only [Option.map_some, BasicBlock.rewrite, List.getElem?_map]
    cases hs : block.statements[p.idx]? with
    | some stmt =>
      have hat : (f.stmtsAt p.bb)[p.idx]? = some stmt := hstmts ▸ hs
      rw [MirFunction.rewrittenAt, hat] at hreads
      simp only [Option.map_some, execStmt_rewrite hat hreads hlower]
    | none =>
      have hat : (f.stmtsAt p.bb)[p.idx]? = none := hstmts ▸ hs
      rw [MirFunction.rewrittenAt, hat, hterm] at hreads
      have hsame := @execTerm_rewrite _ rt f.locals g p.state block.terminator
        fun discr targets otherwise span ht => by
          rw [ht] at hreads
          exact ⟨hreads [] discr [] rfl, hlower.switch discr targets otherwise span (hterm.trans ht)⟩
      simp only [Option.map_none, hsame]

end Olive
