import Olive.ApartLists
import Olive.ListAppendShape
import Olive.Liveness

/-! What a statement does with lists that are held, and that it depends on nothing but the variables
that it reads. -/

namespace Olive

namespace ListAppend

open Lockstep

variable {W : Type} {rt : ListRuntime W} {P : Local → Bool} {decls : List LocalDecl}

theorem listOp_cases (P : Local → Bool) (kind : StatementKind) :
    (∃ dst ops, listOp P kind = .literal dst ops ∧ kind = .assign dst (.aggregate .list ops) ∧
      P dst = true) ∨
    (∃ dst list elem, listOp P kind = .push dst list elem ∧
      kind = .assign dst (.call (.const (.function "__olive_list_push")) [list, elem])) ∨
    (∃ dst list right, listOp P kind = .concat dst list right ∧
      kind = .assign dst (.call (.const (.function "__olive_list_concat_move")) [list, .copy right]) ∧
      P right = true) ∨
    (∃ l, listOp P kind = .drop l ∧ kind = .drop l ∧ P l = true) ∨ listOp P kind = .other := by
  unfold listOp
  split
  next dst ops =>
    split
    next hp => exact .inl ⟨dst, ops, rfl, rfl, hp⟩
    next => exact .inr (.inr (.inr (.inr rfl)))
  next dst name list elem =>
    split
    next hname =>
      subst hname
      exact .inr (.inl ⟨dst, list, elem, rfl, rfl⟩)
    next =>
      split
      next hname =>
        subst hname
        split
        next right =>
          split
          next hp => exact .inr (.inr (.inl ⟨dst, list, right, rfl, rfl, hp⟩))
          next => exact .inr (.inr (.inr (.inr rfl)))
        next => exact .inr (.inr (.inr (.inr rfl)))
      next => exact .inr (.inr (.inr (.inr rfl)))
  next l =>
    split
    next hp => exact .inr (.inr (.inr (.inl ⟨l, rfl, rfl, hp⟩)))
    next => exact .inr (.inr (.inr (.inr rfl)))
  next => exact .inr (.inr (.inr (.inr rfl)))

theorem hold_of_ne {held : Local → Option (List Word)} {l x : Local} {xs : Option (List Word)}
    (h : x ≠ l) : hold held l xs x = held x := if_neg h

@[simp] theorem hold_self {held : Local → Option (List Word)} {l : Local} {xs : Option (List Word)} :
    hold held l xs l = xs := if_pos rfl

/-- States that differ in variables of `S` at most, and in the list of `temp`. -/
structure SameHeld (S : Local → Prop) (temp : Local) (s t : HeldState W) : Prop where
  locals : AgreeOff S s.state.locals t.state.locals
  world : s.state.world = t.state.world
  log : s.state.log = t.state.log
  held : ∀ x, x ≠ temp → s.held x = t.held x

section Frame

variable {S : Local → Prop} {temp : Local} {s t : HeldState W} {stmt : Statement}

theorem same_hold (h : SameHeld S temp s t) (l : Local) (xs : Option (List Word)) (x : Local)
    (hx : x ≠ temp) : hold s.held l xs x = hold t.held l xs x := by
  unfold hold
  split
  · rfl
  · exact h.held x hx

variable (rt decls) in
theorem assignList_agrees (h : SameHeld S temp s t) {u v : Local → Val} (huv : AgreeOff S u v)
    (dst : Local) (r : Word × World W) :
    AgreeOff S (assignList rt decls s.state u dst r).locals (assignList rt decls t.state v dst r).locals ∧
      (assignList rt decls s.state u dst r).log = (assignList rt decls t.state v dst r).log :=
  ⟨(huv.set dst _).weaken fun _ hx => hx.1, h.log⟩

theorem right_mem {func list : Operand} {right : Local} :
    Operand.copy right ∈ (Rvalue.call func [list, .copy right]).inputs := by
  simp [Rvalue.inputs, Rvalue.operands]

theorem mem_reads {op : Operand} {l : Local} {dst : Local} {rval : Rvalue}
    (hk : stmt.kind = .assign dst rval) (hop : op ∈ rval.inputs) (hl : op.local? = some l) :
    l ∈ stmt.reads := by
  rw [Statement.reads, hk]
  exact List.mem_filterMap.mpr ⟨op, hop, hl⟩

variable (rt decls) in
/-- A statement that does not read variables of `S` does the same on both. -/
theorem execList_agrees (h : SameHeld S temp s t) (hS : S temp)
    (hreads : ∀ x ∈ stmt.reads, ¬S x) :
    (∃ s' t', execList rt P decls s stmt = .ok s' ∧ execList rt P decls t stmt = .ok t' ∧
      SameHeld S temp s' t') ∨
    ∃ e, execList rt P decls s stmt = .error e ∧ execList rt P decls t stmt = .error e := by
  rcases listOp_cases P stmt.kind with ⟨dst, ops, ho, hk, -⟩ | ⟨dst, list, elem, ho, hk⟩ |
    ⟨dst, list, right, ho, hk, -⟩ | ⟨l, ho, hk, -⟩ | ho
  · have hops : ∀ op ∈ ops, ∀ x, op.local? = some x → ¬S x := fun op hop x hx =>
      hreads x (mem_reads hk (show op ∈ Rvalue.inputs (.aggregate .list ops) from hop) hx)
    obtain ⟨hvals, hagree⟩ := evalOperands_agrees rt.toRuntime ops h.locals hops
    simp only [execList, ho, hvals]
    exact .inl ⟨_, _, rfl, rfl, hagree, h.world, h.log, same_hold h dst _⟩
  · have hmem : ∀ op ∈ [list, elem], ∀ x, op.local? = some x → ¬S x := fun op hop x hx =>
      hreads x (mem_reads hk (List.mem_cons_of_mem _ hop) hx)
    obtain ⟨hl, hagree⟩ := evalOperand_agrees rt.toRuntime h.locals (hmem list List.mem_cons_self)
    obtain ⟨he, hagree'⟩ := evalOperand_agrees rt.toRuntime hagree
      (hmem elem (List.mem_cons_of_mem _ List.mem_cons_self))
    simp only [execList, ho, hl, he, h.world]
    cases push rt _ _ t.state.world with
    | error e => exact .inr ⟨e, rfl, rfl⟩
    | ok r =>
      obtain ⟨hlocals, hlog⟩ := assignList_agrees rt decls h hagree' dst r
      exact .inl ⟨_, _, rfl, rfl, hlocals, rfl, hlog, h.held⟩
  · have hright : right ≠ temp := fun he =>
      hreads temp (he ▸ mem_reads hk right_mem rfl) hS
    have hlist : ∀ x, list.local? = some x → ¬S x := fun x hx =>
      hreads x (mem_reads hk (by simp [Rvalue.inputs, Rvalue.operands]) hx)
    obtain ⟨hl, hagree⟩ := evalOperand_agrees rt.toRuntime h.locals hlist
    simp only [execList, ho, hl, h.world, h.held right hright]
    cases concatMove rt _ _ t.state.world with
    | error e => exact .inr ⟨e, rfl, rfl⟩
    | ok r =>
      obtain ⟨hlocals, hlog⟩ := assignList_agrees rt decls h hagree dst r
      exact .inl ⟨_, _, rfl, rfl, hlocals, rfl, hlog, same_hold h right _⟩
  · have hl : l ≠ temp := by
      rintro rfl
      exact hreads l (by rw [Statement.reads, hk]; exact List.mem_singleton_self l) hS
    simp only [execList, ho, h.held l hl]
    refine .inl ⟨_, _, rfl, rfl, ?_⟩
    split
    · exact ⟨h.locals, by rw [h.world], h.log, same_hold h l none⟩
    · exact h
  · simp only [execList, ho]
    rcases (execStmt_agrees rt.toRuntime decls h.locals h.world hreads).cases with
      ⟨u, v, new, hu, hv, hagree, hworld, hs, ht⟩ | ⟨e, hu, hv⟩
    · refine .inl ⟨⟨u, s.held⟩, ⟨v, t.held⟩, by rw [hu]; rfl, by rw [hv]; rfl, ?_, hworld, ?_, h.held⟩
      · exact hagree.weaken fun x hx => hx.1
      · rw [hs, ht, h.log]
    · exact .inr ⟨e, by rw [hu]; rfl, by rw [hv]; rfl⟩

variable (rt decls) in
theorem execTerm_held {term : Option Terminator} (h : SameHeld S temp s t)
    (hreads : ∀ tm, term = some tm → ∀ x ∈ tm.kind.reads, ¬S x) :
    (∃ bb u v, rt.execTerm decls s.state term = .inl (bb, u) ∧
      rt.execTerm decls t.state term = .inl (bb, v) ∧ SameHeld S temp ⟨u, s.held⟩ ⟨v, t.held⟩) ∨
    ∃ o, rt.execTerm decls s.state term = .inr o ∧ rt.execTerm decls t.state term = .inr o := by
  rcases execTerm_agrees rt.toRuntime decls h.locals h.world hreads with
    ⟨bb, u, v, hu, hv, hagree, hworld, hworld', hlog, hlog'⟩ | ⟨v, hu, hv⟩ | ⟨e, hu, hv⟩
  · refine .inl ⟨bb, u, v, hu, hv, hagree, ?_, ?_, h.held⟩
    · rw [hworld, hworld', h.world]
    · rw [hlog, hlog', h.log]
  · exact .inr ⟨_, hu, by rw [hv, h.world, h.log]⟩
  · exact .inr ⟨_, hu, by rw [hv, h.world, h.log]⟩

variable {s' : HeldState W}

theorem assignList_frame {u : Local → Val} {dst x : Local} {r : Word × World W} (hx : x ≠ dst) :
    (assignList rt decls s.state u dst r).locals x = u x := setLocal_of_ne _ hx

/-- What a statement neither assigns nor moves out nor drops stays. -/
theorem execList_frame (h : execList rt P decls s stmt = .ok s') {x : Local}
    (hdst : stmt.dst? ≠ some x) (hclear : x ∉ stmt.clears) :
    s'.state.locals x = s.state.locals x := by
  have hne : ∀ dst rval, stmt.kind = .assign dst rval → x ≠ dst := fun dst rval hk he =>
    hdst (Statement.dst?_eq_some.mpr ⟨rval, he ▸ hk⟩)
  have hmoved : ∀ dst rval, stmt.kind = .assign dst rval → ∀ op ∈ rval.inputs, op.moved? ≠ some x := by
    intro dst rval hk op hop hm
    refine hclear ?_
    rw [Statement.clears, hk]
    exact List.mem_filterMap.mpr ⟨op, hop, hm⟩
  rcases listOp_cases P stmt.kind with ⟨dst, ops, ho, hk, -⟩ | ⟨dst, list, elem, ho, hk⟩ |
    ⟨dst, list, right, ho, hk, -⟩ | ⟨l, ho, hk, -⟩ | ho
  · simp only [execList, ho] at h
    cases h
    exact evalOperands_frame ops (hmoved _ _ hk)
  · simp only [execList, ho] at h
    have hlist := hmoved _ _ hk list (by simp [Rvalue.inputs, Rvalue.operands])
    have helem := hmoved _ _ hk elem (by simp [Rvalue.inputs, Rvalue.operands])
    cases hp : push rt (rt.evalOperand s.state.locals list).1.toWord
        (rt.evalOperand (rt.evalOperand s.state.locals list).2 elem).1.toWord s.state.world with
    | error e => simp [hp, Except.map] at h
    | ok r =>
      simp only [hp, Except.map, Except.ok.injEq] at h
      rw [← h]
      exact (assignList_frame (hne _ _ hk)).trans
        ((evalOperand_frame helem).trans (evalOperand_frame hlist))
  · simp only [execList, ho] at h
    have hlist := hmoved _ _ hk list (by simp [Rvalue.inputs, Rvalue.operands])
    cases hc : concatMove rt (rt.evalOperand s.state.locals list).1.toWord (s.held right)
        s.state.world with
    | error e => simp [hc, Except.map] at h
    | ok r =>
      simp only [hc, Except.map, Except.ok.injEq] at h
      rw [← h]
      exact (assignList_frame (hne _ _ hk)).trans (evalOperand_frame hlist)
  · simp only [execList, ho, Except.ok.injEq] at h
    rw [← h]
    split
    · rfl
    · rfl
  · simp only [execList, ho] at h
    cases hu : rt.execStmt decls s.state stmt with
    | error e => simp [hu, Except.map] at h
    | ok u =>
      simp only [hu, Except.map, Except.ok.injEq] at h
      rw [← h]
      exact execStmt_frame hu hdst hclear

/-- The list of a local that a statement does not name stays. -/
theorem execList_held (h : execList rt P decls s stmt = .ok s') {x : Local}
    (hdst : stmt.dst? ≠ some x) (hreads : x ∉ stmt.reads) : s'.held x = s.held x := by
  rcases listOp_cases P stmt.kind with ⟨dst, ops, ho, hk, -⟩ | ⟨dst, list, elem, ho, hk⟩ |
    ⟨dst, list, right, ho, hk, -⟩ | ⟨l, ho, hk, -⟩ | ho
  · simp only [execList, ho] at h
    cases h
    exact hold_of_ne fun he => hdst (Statement.dst?_eq_some.mpr ⟨_, he ▸ hk⟩)
  · simp only [execList, ho] at h
    cases hp : push rt (rt.evalOperand s.state.locals list).1.toWord
        (rt.evalOperand (rt.evalOperand s.state.locals list).2 elem).1.toWord s.state.world with
    | error e => simp [hp, Except.map] at h
    | ok r =>
      simp only [hp, Except.map, Except.ok.injEq] at h
      rw [← h]
  · simp only [execList, ho] at h
    have hright : right ∈ stmt.reads :=
      mem_reads hk right_mem rfl
    cases hc : concatMove rt (rt.evalOperand s.state.locals list).1.toWord (s.held right)
        s.state.world with
    | error e => simp [hc, Except.map] at h
    | ok r =>
      simp only [hc, Except.map, Except.ok.injEq] at h
      rw [← h]
      exact hold_of_ne fun he => hreads (he ▸ hright)
  · simp only [execList, ho, Except.ok.injEq] at h
    have hl : x ≠ l := by
      rintro rfl
      exact hreads (by rw [Statement.reads, hk]; exact List.mem_singleton_self x)
    rw [← h]
    split
    · exact hold_of_ne hl
    · rfl
  · simp only [execList, ho] at h
    cases hu : rt.execStmt decls s.state stmt with
    | error e => simp [hu, Except.map] at h
    | ok u =>
      simp only [hu, Except.map, Except.ok.injEq] at h
      rw [← h]

end Frame

section Pushing

variable (rt P decls) in
def execAll : List Statement → HeldState W → Except Fault (HeldState W)
  | [], s => .ok s
  | stmt :: rest, s => (execList rt P decls s stmt).bind (execAll rest)

variable {dst : Local} {span : Span}

def pushStmt (dst : Local) (span : Span) (src : Local) (op : Operand) : Statement :=
  ⟨.assign dst (.call (.const (.function "__olive_list_push")) [.move src, op]), span⟩

/-- The pushes of `ops`, the first onto the list of `src`. -/
def pushes (dst : Local) (span : Span) (src : Local) : List Operand → List Statement
  | [] => []
  | op :: ops => pushStmt dst span src op :: pushes dst span dst ops

theorem pushes_dst (ops : List Operand) : pushes dst span dst ops = ops.map (pushStmt dst span dst) := by
  induction ops with
  | nil => rfl
  | cons op ops ih => rw [pushes, ih, List.map_cons]

theorem appends_pushes {s : Site} {op : Operand} {ops : List Operand} (h : s.ops = op :: ops) :
    appends s span = pushes s.dst span s.left (op :: ops) := by
  have htail : (ops.mapIdx fun i op => pushStmt s.dst span (if i + 1 = 0 then s.left else s.dst) op) =
      ops.map (pushStmt s.dst span s.dst) := by
    simp [List.mapIdx_eq_zipIdx_map, ← Function.comp_def, ← List.map_map]
  rw [pushes, pushes_dst, ← htail, appends, h]
  exact List.mapIdx_cons

theorem exec_push {u : HeldState W} {src : Local} {op : Operand} :
    execList rt P decls u (pushStmt dst span src op) =
      (push rt (u.state.locals src).toWord
        (rt.evalOperand (setLocal u.state.locals src (u.state.locals src).zeroed) op).1.toWord
        u.state.world).map fun r => ⟨assignList rt decls u.state
          (rt.evalOperand (setLocal u.state.locals src (u.state.locals src).zeroed) op).2 dst r,
          u.held⟩ := rfl

theorem fit_word (hwide : (tyOf decls dst).isNarrow = false) (v : Val) : rt.fit (tyOf decls dst) v = v := by
  rw [Runtime.fit, hwide]
  rfl

/-- The pushes append the values of their operands, and move out of what these move out of. -/
theorem execAll_pushes (hwide : (tyOf decls dst).isNarrow = false) {op : Operand} {ops : List Operand}
    (hdst : ∀ op ∈ ops, op.local? ≠ some dst) {u : HeldState W} {src : Local} {r : Word} {w : World W}
    (h : pushAll rt (u.state.locals src).toWord
      ((rt.evalOperands (setLocal u.state.locals src (u.state.locals src).zeroed) (op :: ops)).1.map
        Val.toWord) u.state.world = .ok (r, w)) :
    ∃ v, execAll rt P decls (pushes dst span src (op :: ops)) u = .ok v ∧
      v.held = u.held ∧ v.state.world = w ∧ v.state.log = u.state.log ∧ v.state.locals dst = .word r ∧
      AgreeOff (· = dst) v.state.locals
        (rt.evalOperands (setLocal u.state.locals src (u.state.locals src).zeroed) (op :: ops)).2 := by
  induction ops generalizing op u src with
  | nil =>
    cases hp : push rt (u.state.locals src).toWord
        (rt.evalOperand (setLocal u.state.locals src (u.state.locals src).zeroed) op).1.toWord
        u.state.world with
    | error e =>
      simp only [Runtime.evalOperands, List.map_cons, pushAll, hp, Except.bind] at h
      cases h
    | ok r₁ =>
      simp only [Runtime.evalOperands, List.map_cons, List.map_nil, pushAll, hp, Except.bind,
        Except.ok.injEq, Prod.mk.injEq] at h
      obtain ⟨rfl, rfl⟩ := h
      let u₁ : HeldState W := ⟨assignList rt decls u.state
        (rt.evalOperand (setLocal u.state.locals src (u.state.locals src).zeroed) op).2 dst r₁, u.held⟩
      have hexec : execAll rt P decls (pushes dst span src [op]) u = .ok u₁ := by
        rw [pushes, pushes, execAll, exec_push, hp]
        rfl
      refine ⟨u₁, hexec, rfl, rfl, rfl, ?_, ?_⟩
      · exact (setLocal_self _ _ _).trans (fit_word hwide _)
      · intro x hx
        exact setLocal_of_ne _ hx
  | cons next ops ih =>
    cases hp : push rt (u.state.locals src).toWord
        (rt.evalOperand (setLocal u.state.locals src (u.state.locals src).zeroed) op).1.toWord
        u.state.world with
    | error e =>
      simp only [Runtime.evalOperands, List.map_cons, pushAll, hp, Except.bind] at h
      cases h
    | ok r₁ =>
      let first := rt.evalOperand (setLocal u.state.locals src (u.state.locals src).zeroed) op
      let u₁ : HeldState W := ⟨assignList rt decls u.state first.2 dst r₁, u.held⟩
      have hlist : u₁.state.locals dst = .word r₁.1 := (setLocal_self _ _ _).trans (fit_word hwide _)
      have hoff : AgreeOff (· = dst)
          (setLocal u₁.state.locals dst (u₁.state.locals dst).zeroed) first.2 := by
        intro x hx
        exact (setLocal_of_ne _ hx).trans (setLocal_of_ne _ hx)
      obtain ⟨hvals, hagree⟩ := evalOperands_agrees rt.toRuntime (next :: ops) hoff
        fun o ho x hx he => hdst o ho (hx.trans (congrArg some he))
      have hrest : pushAll rt (u₁.state.locals dst).toWord
          ((rt.evalOperands (setLocal u₁.state.locals dst (u₁.state.locals dst).zeroed)
            (next :: ops)).1.map Val.toWord) u₁.state.world = .ok (r, w) := by
        rw [hvals, hlist]
        rw [Runtime.evalOperands, List.map_cons, pushAll, hp] at h
        exact h
      obtain ⟨v, hexec, hheld, hworld, hlog, hword, hoff'⟩ :=
        ih (fun o ho => hdst o (List.mem_cons_of_mem _ ho)) hrest
      refine ⟨v, ?_, hheld, hworld, hlog, hword, fun x hx => (hoff' x hx).trans (hagree x hx)⟩
      rw [pushes, execAll, exec_push, hp]
      exact hexec

variable (rt P span) in
/-- Nothing to push: the list itself is handed on. -/
theorem exec_hand_on (hwide : (tyOf decls dst).isNarrow = false) {u : HeldState W} {src : Local}
    {l : Word} (hl : u.state.locals src = .word l) :
    execList rt P decls u ⟨.assign dst (.use (.move src)), span⟩ =
      .ok ⟨⟨setLocal (setLocal u.state.locals src (.word 0)) dst (.word l), u.state.world,
        u.state.log⟩, u.held⟩ := by
  have hlog : u.state.log ++ Runtime.callEvents (.use (.move src)) [Val.word l] = u.state.log :=
    List.append_nil _
  simp only [execList, listOp, Runtime.execStmt, Runtime.runAssign, Rvalue.inputs, Rvalue.operands,
    Runtime.evalOperands, Runtime.evalOperand, lower, Instr.eval, Except.map, hl, Val.zeroed, hlog,
    fit_word hwide]

end Pushing

section Steps

variable {f : MirFunction} {p q : HeldPoint W} {stmt : Statement} {s : HeldState W}

theorem block_of_stmt {bb : BasicBlockId} {idx : Nat} (hs : (f.stmtsAt bb)[idx]? = some stmt) :
    ∃ block, f.basicBlocks[bb]? = some block ∧ block.statements[idx]? = some stmt := by
  unfold MirFunction.stmtsAt at hs
  split at hs
  next block hb => exact ⟨block, hb, hs⟩
  next => cases hs

theorem heldStep_ok (hs : (f.stmtsAt p.bb)[p.idx]? = some stmt)
    (h : execList rt P f.locals p.state stmt = .ok s) :
    heldStep rt P f p = .inl ⟨p.bb, p.idx + 1, s⟩ := by
  obtain ⟨block, hb, hstmt⟩ := block_of_stmt hs
  simp only [heldStep, hb, hstmt, h]

theorem heldStep_error {e : Fault} (hs : (f.stmtsAt p.bb)[p.idx]? = some stmt)
    (h : execList rt P f.locals p.state stmt = .error e) :
    heldStep rt P f p = .inr (.faulted e p.state.state.world p.state.state.log) := by
  obtain ⟨block, hb, hstmt⟩ := block_of_stmt hs
  simp only [heldStep, hb, hstmt, h]

theorem heldStep_out (hb : f.basicBlocks.length ≤ p.bb) :
    heldStep rt P f p = .inr (.faulted .trap p.state.state.world p.state.state.log) := by
  simp only [heldStep, List.getElem?_eq_none hb]

theorem heldStep_term (hb : p.bb < f.basicBlocks.length) (hs : (f.stmtsAt p.bb)[p.idx]? = none) :
    heldStep rt P f p =
      match rt.execTerm f.locals p.state.state (f.terminatorAt p.bb) with
      | .inl (bb, s) => .inl ⟨bb, 0, ⟨s, p.state.held⟩⟩
      | .inr o => .inr o := by
  have hblock := List.getElem?_eq_getElem hb
  rw [stmtsAt_of_block hblock] at hs
  cases hterm : rt.execTerm f.locals p.state.state f.basicBlocks[p.bb].terminator with
  | inl r => simp only [heldStep, hblock, hs, MirFunction.terminatorAt, Option.bind_some, hterm]
  | inr o => simp only [heldStep, hblock, hs, MirFunction.terminatorAt, Option.bind_some, hterm]

/-- Where a step goes. -/
theorem heldStep_place (h : heldStep rt P f p = .inl q) :
    (∃ stmt, (f.stmtsAt p.bb)[p.idx]? = some stmt ∧ q.bb = p.bb ∧ q.idx = p.idx + 1 ∧
        execList rt P f.locals p.state stmt = .ok q.state) ∨
      (f.stmtsAt p.bb)[p.idx]? = none ∧ q.bb ∈ f.successors p.bb ∧ q.idx = 0 := by
  by_cases hb : p.bb < f.basicBlocks.length
  · cases hs : (f.stmtsAt p.bb)[p.idx]? with
    | some stmt =>
      cases he : execList rt P f.locals p.state stmt with
      | error e =>
        rw [heldStep_error hs he] at h
        cases h
      | ok s =>
        rw [heldStep_ok hs he] at h
        cases h
        exact .inl ⟨stmt, rfl, rfl, rfl, he⟩
    | none =>
      rw [heldStep_term hb hs] at h
      cases he : rt.execTerm f.locals p.state.state (f.terminatorAt p.bb) with
      | inr o =>
        rw [he] at h
        cases h
      | inl r =>
        rw [he] at h
        cases h
        cases ht : f.terminatorAt p.bb with
        | none =>
          rw [ht] at he
          cases he
        | some term =>
          refine .inr ⟨rfl, ?_, rfl⟩
          rw [ht] at he
          rw [MirFunction.successors, ht]
          exact execTerm_target he
  · rw [heldStep_out (Nat.le_of_not_lt hb)] at h
    cases h

/-- Statements in a row. -/
theorem runs_execAll {stmts : List Statement} {bb : BasicBlockId} {idx : Nat} {u v : HeldState W}
    (hs : ∀ k stmt, stmts[k]? = some stmt → (f.stmtsAt bb)[idx + k]? = some stmt)
    (h : execAll rt P f.locals stmts u = .ok v) :
    runs (heldStep rt P f) stmts.length ⟨bb, idx, u⟩ = .inl ⟨bb, idx + stmts.length, v⟩ := by
  induction stmts generalizing idx u with
  | nil =>
    cases h
    rfl
  | cons stmt rest ih =>
    rw [execAll] at h
    cases he : execList rt P f.locals u stmt with
    | error e =>
      rw [he] at h
      cases h
    | ok u₁ =>
      rw [he] at h
      have hrest : runs (heldStep rt P f) rest.length ⟨bb, idx + 1, u₁⟩ =
          .inl ⟨bb, idx + 1 + rest.length, v⟩ := by
        refine ih (fun k st hk => ?_) h
        have hat := hs (k + 1) st hk
        rwa [← Nat.add_assoc, Nat.add_right_comm] at hat
      rw [List.length_cons, runs_succ_inl (heldStep_ok (p := ⟨bb, idx, u⟩) (hs 0 stmt rfl) he), hrest]
      congr 2
      omega

end Steps

section Apart

variable {f : MirFunction} {s : Site} {t : Local}

theorem not_any_local {ops : List Operand} (h : (ops.any fun op => op.local? == some t) = false) :
    t ∉ ops.filterMap Operand.local? := by
  intro hmem
  obtain ⟨op, hop, hl⟩ := List.mem_filterMap.mp hmem
  have hany := List.any_eq_false.mp h op hop
  rw [hl] at hany
  exact hany (beq_self_eq_true _)

/-- What the pass takes for no read is no read, and no assignment. -/
theorem not_read {stmt : Statement} (h : reads stmt.kind t = false)
    (hmarker : isMarkerFor stmt.kind t = false) : stmt.dst? ≠ some t ∧ t ∉ stmt.reads := by
  unfold Statement.dst? Statement.reads
  cases hk : stmt.kind with
  | assign dst rval =>
    rw [hk, reads, Bool.or_eq_false_iff] at h
    obtain ⟨hdst, hlocals⟩ := h
    refine ⟨fun he => ?_, fun hmem => ?_⟩
    · rw [Option.some.inj he, beq_self_eq_true] at hdst
      cases hdst
    · have hlocal : t ∈ rval.locals := by
        rw [← inputs_locals]
        exact hmem
      rw [List.contains_iff_mem.mpr hlocal] at hlocals
      cases hlocals
  | setAttr obj attr val =>
    rw [hk] at h
    exact ⟨fun he => (nomatch he), not_any_local h⟩
  | setIndex obj idx val unchecked =>
    rw [hk] at h
    exact ⟨fun he => (nomatch he), not_any_local h⟩
  | vectorStore obj idx val =>
    rw [hk] at h
    exact ⟨fun he => (nomatch he), not_any_local h⟩
  | ptrStore ptr val =>
    rw [hk] at h
    exact ⟨fun he => (nomatch he), not_any_local h⟩
  | genCheck value generation =>
    rw [hk, reads, Bool.or_eq_false_iff] at h
    refine ⟨fun he => (nomatch he), fun hmem => ?_⟩
    rcases List.mem_pair.mp hmem with rfl | rfl
    · simp at h
    · simp at h
  | storageLive l => exact ⟨fun he => (nomatch he), List.not_mem_nil⟩
  | storageDead l => exact ⟨fun he => (nomatch he), List.not_mem_nil⟩
  | drop l =>
    refine ⟨fun he => (nomatch he), fun hmem => ?_⟩
    rw [hk, isMarkerFor, ← List.mem_singleton.mp hmem, beq_self_eq_true] at hmarker
    cases hmarker

theorem apartIn_of_reads {kind : StatementKind} (h : reads kind t = false) : apartIn t kind = true := by
  unfold apartIn
  split
  next dst ops =>
    rw [reads, Bool.or_eq_false_iff] at h
    rw [Bool.not_eq_true', List.any_eq_false]
    intro op hop hl
    have hmem : t ∈ (Rvalue.aggregate .list ops).locals :=
      List.mem_filterMap.mpr ⟨op, hop, beq_iff_eq.mp hl⟩
    rw [List.contains_iff_mem.mpr hmem] at h
    cases h.2
  next dst name list right =>
    split
    next =>
      rw [reads, Bool.or_eq_false_iff] at h
      rw [Bool.and_eq_true, bne_iff_ne, bne_iff_ne]
      refine ⟨fun he => ?_, fun he => ?_⟩
      · rw [he, beq_self_eq_true] at h
        cases h.1
      · have hmem : t ∈ (Rvalue.call (.const (.function name)) [list, .copy right]).locals :=
          List.mem_filterMap.mpr ⟨list, by simp [Rvalue.operands], he⟩
        rw [List.contains_iff_mem.mpr hmem] at h
        cases h.2
    next => rw [h]; rfl
  next => rw [h]; rfl

theorem switchedOn_false {term : Option Terminator} :
    switchedOn term t = false ↔ ∀ tm, term = some tm → tm.kind ≠ .ret → t ∉ tm.kind.reads := by
  unfold switchedOn
  split
  next discr targets otherwise span =>
    rw [beq_eq_false_iff_ne]
    refine ⟨fun h tm he _ hmem => ?_, fun h he => ?_⟩
    · cases he
      exact h (Option.mem_toList.mp hmem)
    · exact h _ rfl (by simp) (Option.mem_toList.mpr he)
  next hother =>
    refine ⟨fun _ tm he hret => ?_, fun _ => rfl⟩
    cases hk : tm.kind with
    | goto target => exact List.not_mem_nil
    | unreachable => exact List.not_mem_nil
    | ret => exact absurd hk hret
    | switchInt discr targets otherwise =>
      exact absurd (he.trans (by rw [← hk])) (hother discr targets otherwise tm.span)

theorem apart_iff : apart f t = true ↔ f.argCount < t ∧
    (∀ bb, ∀ stmt ∈ f.stmtsAt bb, apartIn t stmt.kind = true) ∧
    ∀ bb tm, f.terminatorAt bb = some tm → tm.kind ≠ .ret → t ∉ tm.kind.reads := by
  simp only [apart, Bool.and_eq_true, decide_eq_true_eq, List.all_eq_true, Bool.not_eq_true',
    switchedOn_false]
  refine and_congr_right fun _ => ⟨fun h => ⟨fun bb stmt hmem => ?_, fun bb tm ht => ?_⟩, fun h b hb => ?_⟩
  · obtain ⟨idx, hidx⟩ := List.getElem?_of_mem hmem
    obtain ⟨block, hb, hs⟩ := block_of_stmt hidx
    exact (h block (List.mem_of_getElem? hb)).1 stmt (List.mem_of_getElem? hs)
  · obtain ⟨block, hb, ht⟩ := Option.bind_eq_some_iff.mp ht
    exact (h block (List.mem_of_getElem? hb)).2 tm ht
  · obtain ⟨bb, hbb⟩ := List.getElem?_of_mem hb
    refine ⟨fun stmt hmem => h.1 bb stmt (by rwa [stmtsAt_of_block hbb]), fun tm ht => h.2 bb tm ?_⟩
    rw [MirFunction.terminatorAt, hbb]
    exact ht

theorem apartIn_reads {kind : StatementKind} (h : apartIn t kind = !reads kind t) :
    apartIn t kind = true ↔ reads kind t = false := by
  rw [h, Bool.not_eq_true']

theorem reads_assign {dst : Local} {rval : Rvalue} :
    reads (.assign dst rval) t = false ↔ dst ≠ t ∧ t ∉ rval.locals := by
  rw [reads, Bool.or_eq_false_iff, beq_eq_false_iff_ne, ← Bool.not_eq_true, List.contains_iff_mem]

theorem apartIn_hand_on {dst src : Local} :
    apartIn t (.assign dst (.use (.move src))) = true ↔ dst ≠ t ∧ src ≠ t := by
  have hlocals : (Rvalue.use (.move src)).locals = [src] := rfl
  rw [apartIn_reads rfl, reads_assign, hlocals, List.mem_singleton]
  exact and_congr_right fun _ => ne_comm

theorem apartIn_push {dst src : Local} {op : Operand} {span : Span} :
    apartIn t (pushStmt dst span src op).kind = true ↔ dst ≠ t ∧ src ≠ t ∧ op.local? ≠ some t := by
  have hpush : apartIn t (pushStmt dst span src op).kind = !reads (pushStmt dst span src op).kind t := by
    cases op with
    | _ => rfl
  rw [apartIn_reads hpush, pushStmt, reads_assign]
  have hlocals : t ∈ (Rvalue.call (.const (.function "__olive_list_push")) [.move src, op]).locals ↔
      src = t ∨ op.local? = some t := by
    simp only [Rvalue.locals, Rvalue.operands, List.mem_filterMap, List.mem_cons, List.not_mem_nil,
      or_false]
    constructor
    · rintro ⟨o, rfl | rfl | rfl, ho⟩
      · cases ho
      · exact .inl (Option.some.inj ho)
      · exact .inr ho
    · rintro (rfl | ho)
      · exact ⟨_, .inr (.inl rfl), rfl⟩
      · exact ⟨op, .inr (.inr rfl), ho⟩
  rw [hlocals, not_or]

theorem apartIn_appends {span : Span} : (∀ a ∈ appends s span, apartIn t a.kind = true) ↔
    s.dst ≠ t ∧ s.left ≠ t ∧ ∀ op ∈ s.ops, op.local? ≠ some t := by
  cases hops : s.ops with
  | nil =>
    have happ : appends s span = [⟨.assign s.dst (.use (.move s.left)), span⟩] := by
      rw [appends, hops]
    rw [happ, List.forall_mem_singleton, apartIn_hand_on]
    exact ⟨fun h => ⟨h.1, h.2, fun op hop => (nomatch hop)⟩, fun h => ⟨h.1, h.2.1⟩⟩
  | cons op ops =>
    rw [appends_pushes hops, pushes, pushes_dst, List.forall_mem_cons, apartIn_push,
      List.forall_mem_map, List.forall_mem_cons]
    simp only [apartIn_push]
    exact ⟨fun ⟨h, hrest⟩ => ⟨h.1, h.2.1, h.2.2, fun o ho => (hrest o ho).2.2⟩,
      fun ⟨hdst, hleft, hop, hrest⟩ => ⟨⟨hdst, hleft, hop⟩, fun o ho => ⟨hdst, hdst, hrest o ho⟩⟩⟩

theorem apartIn_literal {dst : Local} {ops : List Operand} :
    apartIn t (.assign dst (.aggregate .list ops)) = true ↔ ∀ op ∈ ops, op.local? ≠ some t := by
  simp [apartIn]

theorem apartIn_concat {dst left temp : Local} :
    apartIn t (.assign dst (.call (.const (.function "__olive_list_concat_move"))
      [.move left, .copy temp])) = true ↔ dst ≠ t ∧ left ≠ t := by
  simp [apartIn, Operand.local?]

theorem apartIn_marker {kind : StatementKind} {temp : Local} (h : isMarkerFor kind temp = true) :
    apartIn t kind = true := by
  cases kind with
  | storageLive l => rfl
  | storageDead l => rfl
  | drop l => rfl
  | _ => cases h

/-- The rewriting keeps the same locals apart. -/
theorem apart_apply (h : Found f s) : apart (apply f s) = apart f := by
  obtain ⟨dspan, hdef⟩ := h.literal
  obtain ⟨uspan, huse⟩ := h.concat
  funext t
  rw [Bool.eq_iff_iff, apart_iff, apart_iff]
  simp only [apply_terminatorAt h, apply_stmtsAt h, forall_rebuild, Nat.zero_add]
  refine and_congr_right fun _ => and_congr_left fun _ => ⟨fun hg bb stmt hmem => ?_, fun hf bb k stmt hk => ?_⟩
  · have happ := apartIn_appends.mp (by
      have := hg s.useBb s.useIdx _ huse
      rwa [rewritten_use] at this)
    obtain ⟨k, hk⟩ := List.getElem?_of_mem hmem
    have hstmt := hg bb k stmt hk
    unfold rewritten at hstmt
    split at hstmt
    next he =>
      obtain ⟨rfl, rfl⟩ := Prod.mk.inj he
      obtain rfl := Option.some.inj (hk.symm.trans huse)
      exact apartIn_concat.mpr ⟨happ.1, happ.2.1⟩
    next =>
      split at hstmt
      next he =>
        obtain ⟨rfl, rfl⟩ := Prod.mk.inj he
        obtain rfl := Option.some.inj (hk.symm.trans hdef)
        exact apartIn_literal.mpr happ.2.2
      next =>
        split at hstmt
        next hmarker => exact apartIn_marker hmarker
        next => exact hstmt stmt List.mem_cons_self
  · have hconcat := apartIn_concat.mp (hf s.useBb _ (List.mem_of_getElem? huse))
    have hliteral := apartIn_literal.mp (hf s.defBb _ (List.mem_of_getElem? hdef))
    unfold rewritten
    split
    next => exact apartIn_appends.mpr ⟨hconcat.1, hconcat.2, hliteral⟩
    next =>
      split
      next => exact fun a ha => (nomatch ha)
      next =>
        split
        next => exact fun a ha => (nomatch ha)
        next =>
          intro a ha
          rw [List.mem_singleton.mp ha]
          exact hf bb stmt (List.mem_of_getElem? hk)

end Apart

end ListAppend

end Olive
