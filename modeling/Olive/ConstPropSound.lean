import Mathlib.Data.BitVec
import Olive.ConstProp

namespace Olive

open Lockstep

variable {W : Type} {rt : Runtime W} {f : MirFunction} {decls : List LocalDecl}
  {map : FxHashMap Local Constant}

/-- The constants that replace locals at one point: those of the function, then of the block. -/
def constsAt (f : MirFunction) (bb : BasicBlockId) (idx : Nat) : FxHashMap Local Constant :=
  fun l => (safeConstants f l).or (localConsts f.locals (((constPropSafe f).stmtsAt bb).take idx) l)

/-- If `map` replaces what `op` reads, `op` copies it, and it holds the constant. -/
def HoldsConstant (rt : Runtime W) (map : FxHashMap Local Constant) (locals : Local → Val)
    (op : Operand) : Prop :=
  ∀ l c, op.local? = some l → map l = some c → op = .copy l ∧ locals l = .word (rt.constant c)

/-- Where a replaced local is read it holds its constant, and codegen emits the same operation for
the constant as for the local. -/
structure ReadsConstants (rt : Runtime W) (f : MirFunction) (p : Point W) : Prop where
  assign : ∀ stmt dst rval, (f.stmtsAt p.bb)[p.idx]? = some stmt → stmt.kind = .assign dst rval →
    rval.propagates = true →
    (∀ op ∈ rval.operands, HoldsConstant rt (constsAt f p.bb p.idx) p.state.locals op) ∧
      lower f.locals (rval.mapOperands (·.propagate (constsAt f p.bb p.idx))) = lower f.locals rval
  store : ∀ stmt, (f.stmtsAt p.bb)[p.idx]? = some stmt → stmt.kind.stored ≠ [] →
    (∀ op ∈ stmt.kind.stored, HoldsConstant rt (safeConstants f) p.state.locals op) ∧
      lowerStore f.locals (stmt.kind.propagateSafe (safeConstants f)) =
        lowerStore f.locals stmt.kind
  switch : ∀ discr targets otherwise span,
    f.terminatorAt p.bb = some ⟨.switchInt discr targets otherwise, span⟩ →
    HoldsConstant rt (safeConstants f) p.state.locals discr ∧
      (discr.propagate (safeConstants f)).isPyObject f.locals = discr.isPyObject f.locals

section Operands

theorem propagate_of_none {op : Operand} (h : op.local?.bind map = none) :
    op.propagate map = op := by
  rw [Operand.propagate, h]

theorem propagate_or (safe known : FxHashMap Local Constant) (op : Operand) :
    (op.propagate safe).propagate known = op.propagate fun l => (safe l).or (known l) := by
  cases op with
  | const c => rfl
  | copy l =>
    cases hs : safe l <;> simp [Operand.propagate, Operand.local?, hs]
  | move l =>
    cases hs : safe l <;> simp [Operand.propagate, Operand.local?, hs]

theorem evalOperand_propagate {locals : Local → Val} {op : Operand}
    (h : HoldsConstant rt map locals op) :
    rt.evalOperand locals (op.propagate map) = rt.evalOperand locals op := by
  cases hb : op.local?.bind map with
  | none => rw [propagate_of_none hb]
  | some c =>
    obtain ⟨l, hl, hc⟩ := Option.bind_eq_some_iff.mp hb
    obtain ⟨rfl, hv⟩ := h l c hl hc
    simp [Operand.propagate, Operand.local?, hc, Runtime.evalOperand, hv]

/-- Evaluating one operand leaves the constants that the others read in place. -/
theorem HoldsConstant.after {locals : Local → Val} {first op : Operand}
    (hfirst : HoldsConstant rt map locals first) (h : HoldsConstant rt map locals op) :
    HoldsConstant rt map (rt.evalOperand locals first).2 op := by
  intro l c hl hc
  obtain ⟨hop, hv⟩ := h l c hl hc
  refine ⟨hop, ?_⟩
  cases first with
  | copy _ => exact hv
  | const _ => exact hv
  | move m =>
    have hne : l ≠ m := by
      intro he
      have hcopy := (hfirst l c (by rw [he]; rfl) hc).1
      simp at hcopy
    simp only [Runtime.evalOperand, setLocal, if_neg hne]
    exact hv

theorem evalOperands_propagate (ops : List Operand) {locals : Local → Val}
    (h : ∀ op ∈ ops, HoldsConstant rt map locals op) :
    rt.evalOperands locals (ops.map (·.propagate map)) = rt.evalOperands locals ops := by
  induction ops generalizing locals with
  | nil => rfl
  | cons op ops ih =>
    have hop := h op List.mem_cons_self
    have hrest : ∀ op' ∈ ops, HoldsConstant rt map (rt.evalOperand locals op).2 op' :=
      fun op' hmem => hop.after (h op' (List.mem_cons_of_mem _ hmem))
    simp only [List.map_cons, Runtime.evalOperands, evalOperand_propagate hop, ih hrest]

end Operands

section Statements

theorem rvalue_propagate_or (safe known : FxHashMap Local Constant) (rval : Rvalue) :
    (rval.propagate safe).propagate known = rval.propagate fun l => (safe l).or (known l) := by
  unfold Rvalue.propagate
  cases h : rval.propagates with
  | true =>
    simp only [if_true, propagates_mapOperands, h, mapOperands_comp, propagate_or]
  | false => simp [h]

theorem runAssign_propagate {s : State W} {dst : Local} {rval : Rvalue}
    (h : rval.propagates = true → (∀ op ∈ rval.operands, HoldsConstant rt map s.locals op) ∧
      lower decls (rval.mapOperands (·.propagate map)) = lower decls rval) :
    rt.runAssign decls s dst (rval.propagate map) = rt.runAssign decls s dst rval := by
  cases hp : rval.propagates with
  | false => simp [Rvalue.propagate, hp]
  | true =>
    obtain ⟨hholds, hlower⟩ := h hp
    have heval := evalOperands_propagate rval.operands hholds
    have hinputs : (rval.mapOperands (·.propagate map)).inputs =
        rval.operands.map (·.propagate map) := by
      rw [inputs_mapOperands _ hp, inputs_eq_operands hp]
    simp only [Rvalue.propagate, hp, if_true, Runtime.runAssign, hinputs, inputs_eq_operands hp,
      heval, hlower, callEvents_of_lower_eq hlower]

theorem runStore_propagate {s : State W} {kind : StatementKind}
    (hstored : (kind.propagateSafe map).stored = kind.stored.map (·.propagate map))
    (h : ∀ op ∈ kind.stored, HoldsConstant rt map s.locals op)
    (hlower : lowerStore decls (kind.propagateSafe map) = lowerStore decls kind) :
    rt.runStore decls s (kind.propagateSafe map) = rt.runStore decls s kind := by
  simp only [Runtime.runStore, hstored, evalOperands_propagate kind.stored h, hlower]

end Statements

section Runs

theorem constProp_block (bb : BasicBlockId) :
    (constProp f).basicBlocks[bb]? = f.basicBlocks[bb]?.map fun block =>
      (block.propagateSafe (safeConstants f)).propagateLocal f.locals := by
  simp only [constProp, constPropSafe, List.getElem?_map, Option.map_map]
  rfl

theorem constPropSafe_stmtsAt {bb : BasicBlockId} {block : BasicBlock}
    (h : f.basicBlocks[bb]? = some block) :
    (constPropSafe f).stmtsAt bb = (block.propagateSafe (safeConstants f)).statements := by
  simp only [MirFunction.stmtsAt, constPropSafe, List.getElem?_map, h, Option.map_some]

theorem constProp_stmt {bb : BasicBlockId} {block : BasicBlock} (h : f.basicBlocks[bb]? = some block)
    (idx : Nat) :
    ((block.propagateSafe (safeConstants f)).propagateLocal f.locals).statements[idx]? =
      block.statements[idx]?.map fun stmt =>
        { stmt with
          kind := (stmt.kind.propagateSafe (safeConstants f)).propagateAssign
            (localConsts f.locals (((constPropSafe f).stmtsAt bb).take idx)) } := by
  rw [constPropSafe_stmtsAt h]
  simp only [BasicBlock.propagateLocal, BasicBlock.propagateSafe, List.getElem?_map,
    List.getElem?_zipIdx]
  cases block.statements[idx]? with
  | none => rfl
  | some stmt => simp

theorem execStmt_constProp {p : Point W} {stmt : Statement} (h : ReadsConstants rt f p)
    (hstmt : (f.stmtsAt p.bb)[p.idx]? = some stmt) :
    rt.execStmt f.locals p.state { stmt with
        kind := (stmt.kind.propagateSafe (safeConstants f)).propagateAssign
          (localConsts f.locals (((constPropSafe f).stmtsAt p.bb).take p.idx)) } =
      rt.execStmt f.locals p.state stmt := by
  have hstore := h.store stmt hstmt
  cases hk : stmt.kind with
  | assign dst rval =>
    simp only [StatementKind.propagateSafe, StatementKind.propagateAssign, Runtime.execStmt, hk,
      rvalue_propagate_or]
    exact runAssign_propagate (h.assign stmt dst rval hstmt hk)
  | setIndex obj idx val unchecked =>
    rw [hk] at hstore
    obtain ⟨hholds, hlower⟩ := hstore (List.cons_ne_nil _ _)
    have hrun := @runStore_propagate _ rt _ _ _ _ rfl hholds hlower
    simpa only [Runtime.execStmt, StatementKind.propagateAssign, StatementKind.propagateSafe, hk]
      using hrun
  | setAttr obj attr val =>
    rw [hk] at hstore
    obtain ⟨hholds, hlower⟩ := hstore (List.cons_ne_nil _ _)
    have hrun := @runStore_propagate _ rt _ _ _ _ rfl hholds hlower
    simpa only [Runtime.execStmt, StatementKind.propagateAssign, StatementKind.propagateSafe, hk]
      using hrun
  | vectorStore obj idx val =>
    rw [hk] at hstore
    obtain ⟨hholds, hlower⟩ := hstore (List.cons_ne_nil _ _)
    have hrun := @runStore_propagate _ rt _ _ _ _ rfl hholds hlower
    simpa only [Runtime.execStmt, StatementKind.propagateAssign, StatementKind.propagateSafe, hk]
      using hrun
  | _ => simp only [StatementKind.propagateSafe, StatementKind.propagateAssign, Runtime.execStmt, hk]

theorem execTerm_constProp {p : Point W} {term : Option Terminator} (h : ReadsConstants rt f p)
    (hterm : f.terminatorAt p.bb = term) :
    rt.execTerm f.locals p.state (term.map fun t =>
        { t with kind := t.kind.propagate (safeConstants f) }) =
      rt.execTerm f.locals p.state term := by
  cases term with
  | none => rfl
  | some t =>
    obtain ⟨kind, span⟩ := t
    cases kind with
    | switchInt discr targets otherwise =>
      obtain ⟨hholds, hclass⟩ := h.switch discr targets otherwise span hterm
      simp only [Option.map_some, TerminatorKind.propagate, Runtime.execTerm, hclass,
        evalOperand_propagate hholds]
    | _ => rfl

/-- Where the replaced locals hold their constants, a step is the same before and after the pass. -/
theorem step_constProp {p : Point W} (h : ReadsConstants rt f p) :
    rt.step (constProp f) p = rt.step f p := by
  have hlocals : (constProp f).locals = f.locals := rfl
  unfold Runtime.step
  rw [constProp_block, hlocals]
  cases hb : f.basicBlocks[p.bb]? with
  | none => rfl
  | some block =>
    have hstmts : f.stmtsAt p.bb = block.statements := by
      simp only [MirFunction.stmtsAt, hb]
    simp only [Option.map_some, constProp_stmt hb]
    cases hs : block.statements[p.idx]? with
    | some stmt => simp only [Option.map_some, execStmt_constProp h (hstmts ▸ hs)]
    | none =>
      have hterm : f.terminatorAt p.bb = block.terminator := by
        simp only [MirFunction.terminatorAt, hb, Option.bind_some]
      simp only [Option.map_none, BasicBlock.propagateLocal, BasicBlock.propagateSafe,
        execTerm_constProp h hterm]

/-- `_0 = _1 + 2` where `_1` is 5. -/
def addsConstant : MirFunction :=
  plainFunction "adds_constant" 0 [.int, .int]
    [⟨[plainStmt (.assign 1 (.use (.const (.int 5)))),
      plainStmt (.assign 0 (.binaryOp .add (.copy 1) (.const (.int 2))))], plainTerm .ret⟩]

theorem addsConstant_run {p : Point Unit}
    (h : Reaches (plainRuntime.step addsConstant) (startPoint [] emptyWorld) p) :
    p.bb = 0 ∧ (p.idx = 0 ∨ p.idx = 1 ∧ p.state.locals 1 = .word 5 ∨ p.idx = 2) := by
  have hend : runs (plainRuntime.step addsConstant) 3 (startPoint [] emptyWorld) =
      .inr (.returned (.word 7) emptyWorld []) := rfl
  obtain ⟨n, hn, hrun⟩ := h.lt_end hend
  obtain rfl | rfl | rfl : n = 0 ∨ n = 1 ∨ n = 2 := by omega
  · cases hrun
    exact ⟨rfl, .inl rfl⟩
  · cases hrun
    exact ⟨rfl, .inr (.inl ⟨rfl, rfl⟩)⟩
  · cases hrun
    exact ⟨rfl, .inr (.inr rfl)⟩

theorem addsConstant_readsConstants {p : Point Unit}
    (h : Reaches (plainRuntime.step addsConstant) (startPoint [] emptyWorld) p) :
    ReadsConstants plainRuntime addsConstant p := by
  obtain ⟨hbb, hidx⟩ := addsConstant_run h
  have hstmts : addsConstant.stmtsAt 0 = [plainStmt (.assign 1 (.use (.const (.int 5)))),
      plainStmt (.assign 0 (.binaryOp .add (.copy 1) (.const (.int 2))))] := rfl
  have hmap : constsAt addsConstant 0 1 1 = some (.int 5) := by decide +kernel
  obtain ⟨bb, idx, state⟩ := p
  obtain rfl : bb = 0 := hbb
  refine ⟨?_, ?_, ?_⟩
  · intro stmt dst rval hs hk _
    rw [hstmts] at hs
    rcases hidx with rfl | ⟨rfl, hv⟩ | rfl
    · cases hs
      cases hk
      refine ⟨?_, rfl⟩
      intro op hop l c hl
      rw [List.mem_singleton.mp hop] at hl
      simp [Operand.local?] at hl
    · cases hs
      cases hk
      refine ⟨?_, ?_⟩
      · intro op hop l c hl hc
        rcases List.mem_pair.mp hop with rfl | rfl
        · cases hl
          cases hmap.symm.trans hc
          exact ⟨rfl, hv⟩
        · simp [Operand.local?] at hl
      · simp only [Rvalue.mapOperands, Operand.propagate, Operand.local?, Option.bind_some,
          Option.bind_none, hmap]
        rfl
    · simp at hs
  · intro stmt hs hne
    rw [hstmts] at hs
    rcases hidx with rfl | ⟨rfl, _⟩ | rfl
    · cases hs
      exact absurd rfl hne
    · cases hs
      exact absurd rfl hne
    · simp at hs
  · intro discr targets otherwise span ht
    cases ht

end Runs

/-- `_1` becomes 5 unless `_2` is zero, and is returned. -/
def assignsParam : MirFunction :=
  plainFunction "assigns_param" 2 [.int, .int, .int]
    [⟨[], plainTerm (.switchInt (.copy 2) [(0, 2)] 1)⟩,
      ⟨[plainStmt (.assign 1 (.use (.const (.int 5))))], plainTerm (.goto 2)⟩,
      ⟨[plainStmt (.assign 0 (.use (.copy 1)))], plainTerm .ret⟩]

/-- Half of the `u64` value 2^63. -/
def halvesU64 : MirFunction :=
  plainFunction "halves_u64" 0 [.u64, .u64]
    [⟨[plainStmt (.assign 1 (.use (.const (.int (BitVec.intMin 64))))),
      plainStmt (.assign 0 (.binaryOp .div (.copy 1) (.const (.int 2))))], plainTerm .ret⟩]

end Olive
