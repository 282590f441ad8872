import Olive.ListAppendFrame

/-! That appending the elements of a literal one by one, without the literal, is no different. -/

namespace Olive

namespace ListAppend

open Lockstep FlowGraph

variable {W : Type} {rt : ListRuntime W} {f : MirFunction} {s : Site} {init : HeldPoint W}

section Between

variable {bb : BasicBlockId} {idx : Nat} {stmt : Statement}

/-- Places from the literal on, up to the concat. -/
inductive Between (f : MirFunction) (s : Site) : BasicBlockId → Nat → Prop
  | start : Between f s s.defBb (s.defIdx + 1)
  | stmt {bb : BasicBlockId} {idx : Nat} {stmt : Statement} : Between f s bb idx →
    (bb, idx) ≠ (s.useBb, s.useIdx) → (f.stmtsAt bb)[idx]? = some stmt → Between f s bb (idx + 1)
  | edge {bb target : BasicBlockId} {idx : Nat} : Between f s bb idx → (f.stmtsAt bb)[idx]? = none →
    target ∈ f.successors bb → Between f s target 0

theorem clear_mem {stmts : List Statement} {watched : List Local} (h : clear stmts watched = true)
    (hmem : stmt ∈ stmts) : clobbers stmt.kind watched = false := by
  rw [clear, Bool.not_eq_true', List.any_eq_false] at h
  exact Bool.eq_false_iff.mpr (h stmt hmem)

theorem not_past {i : Nat} (h : (f.stmtsAt bb)[i]? = some stmt) (hle : idx ≤ i)
    (hnone : (f.stmtsAt bb)[idx]? = none) : False := by
  have hlt := (List.getElem?_eq_some_iff.mp h).1
  have hge := List.getElem?_eq_none_iff.mp hnone
  exact absurd (Nat.le_trans hge hle) (Nat.not_le_of_lt hlt)

/-- In one block the places lie between the two statements. -/
theorem Between.same (hs : Found f s) (hsame : s.defBb = s.useBb) (h : Between f s bb idx) :
    bb = s.useBb ∧ s.defIdx < idx ∧ idx ≤ s.useIdx := by
  obtain ⟨span, huse⟩ := hs.concat
  induction h with
  | start => exact ⟨hsame, Nat.lt_succ_self _, hs.ordered hsame⟩
  | stmt _ hne _ ih =>
    obtain ⟨rfl, hlo, hhi⟩ := ih
    exact ⟨rfl, Nat.lt_succ_of_lt hlo, Nat.lt_of_le_of_ne hhi fun he => hne (by rw [he])⟩
  | edge _ hnone _ ih =>
    obtain ⟨rfl, _, hhi⟩ := ih
    exact (not_past huse hhi hnone).elim

/-- The blocks between the two statements' blocks. -/
structure Region (f : MirFunction) (s : Site) (R : List BasicBlockId) : Prop where
  before : clear ((f.stmtsAt s.defBb).drop (s.defIdx + 1)) s.watched = true
  behind : clear ((f.stmtsAt s.useBb).take s.useIdx) s.watched = true
  inside : ∀ b ∈ R, clear (f.stmtsAt b) s.watched = true
  leaves : ∀ b, b = s.defBb ∨ b ∈ R → ∀ c ∈ f.successors b,
    c = s.useBb ∨ f.basicBlocks.length ≤ c ∨ c ∈ R

theorem region_of_found (hs : Found f s) (hne : s.defBb ≠ s.useBb) : ∃ R, Region f s R := by
  have hclear := hs.clear
  unfold pathIsClear at hclear
  rw [if_neg hne, Option.some_inj, Bool.and_eq_true, Bool.and_eq_true] at hclear
  obtain ⟨⟨hbefore, hbehind⟩, hwalk⟩ := hclear
  obtain ⟨R, hstack, -, hclosed⟩ := walkClear_covers (fun b hb => absurd hb List.not_mem_nil) hwalk
  refine ⟨R, hbefore, hbehind, fun b hb => (hclosed b hb).1, fun b hb c hc => ?_⟩
  have hcovered : Covered f.basicBlocks.length (fun b => b == s.useBb) R c := by
    rcases hb with rfl | hb
    · exact hstack c (List.mem_reverse.mpr hc)
    · exact (hclosed b hb).2 c hc
  exact hcovered.imp_left beq_iff_eq.mp

theorem stmtsAt_out (h : f.basicBlocks.length ≤ bb) : f.stmtsAt bb = [] := by
  simp only [MirFunction.stmtsAt, List.getElem?_eq_none h]

theorem successors_out (h : f.basicBlocks.length ≤ bb) : f.successors bb = [] := by
  simp only [MirFunction.successors, MirFunction.terminatorAt, List.getElem?_eq_none h,
    Option.bind_none]

theorem Between.region {R : List BasicBlockId} (hs : Found f s) (hR : Region f s R)
    (h : Between f s bb idx) :
    bb = s.defBb ∧ s.defIdx < idx ∨ bb = s.useBb ∧ idx ≤ s.useIdx ∨ f.basicBlocks.length ≤ bb ∨
      bb ∈ R := by
  obtain ⟨span, huse⟩ := hs.concat
  induction h with
  | start => exact .inl ⟨rfl, Nat.lt_succ_self _⟩
  | stmt _ hne _ ih =>
    rcases ih with ⟨hb, hlo⟩ | ⟨rfl, hhi⟩ | hout
    · exact .inl ⟨hb, Nat.lt_succ_of_lt hlo⟩
    · exact .inr (.inl ⟨rfl, Nat.lt_of_le_of_ne hhi fun he => hne (by rw [he])⟩)
    · exact .inr (.inr hout)
  | edge _ hnone hsucc ih =>
    have hgo : ∀ b target, b = s.defBb ∨ b ∈ R → target ∈ f.successors b →
        target = s.defBb ∧ s.defIdx < 0 ∨ target = s.useBb ∧ 0 ≤ s.useIdx ∨
          f.basicBlocks.length ≤ target ∨ target ∈ R := fun b target hb hc =>
      .inr ((hR.leaves b hb target hc).imp_left fun he => ⟨he, Nat.zero_le _⟩)
    rcases ih with ⟨hb, -⟩ | ⟨rfl, hhi⟩ | hout | hb
    · exact hgo _ _ (.inl hb) hsucc
    · exact (not_past huse hhi hnone).elim
    · rw [successors_out hout] at hsucc
      exact absurd hsucc List.not_mem_nil
    · exact hgo _ _ (.inr hb) hsucc

/-- No statement before the concat assigns, drops or stores through a watched local. -/
theorem Between.clear (hs : Found f s) (h : Between f s bb idx)
    (hne : (bb, idx) ≠ (s.useBb, s.useIdx)) (hstmt : (f.stmtsAt bb)[idx]? = some stmt) :
    clobbers stmt.kind s.watched = false := by
  by_cases hsame : s.defBb = s.useBb
  · obtain ⟨rfl, hlo, hhi⟩ := h.same hs hsame
    have hlt : idx < s.useIdx := Nat.lt_of_le_of_ne hhi fun he => hne (by rw [he])
    have hclear := hs.clear
    unfold pathIsClear at hclear
    rw [if_pos hsame, if_pos (hs.ordered hsame), Option.some_inj, hsame] at hclear
    refine clear_mem hclear (List.mem_iff_getElem?.mpr ⟨idx - (s.defIdx + 1), ?_⟩)
    rw [List.getElem?_drop, Nat.add_sub_cancel' hlo, List.getElem?_take_of_lt hlt]
    exact hstmt
  · obtain ⟨R, hR⟩ := region_of_found hs hsame
    rcases h.region hs hR with ⟨rfl, hlo⟩ | ⟨rfl, hhi⟩ | hout | hb
    · refine clear_mem hR.before (List.mem_iff_getElem?.mpr ⟨idx - (s.defIdx + 1), ?_⟩)
      rw [List.getElem?_drop, Nat.add_sub_cancel' hlo]
      exact hstmt
    · have hlt : idx < s.useIdx := Nat.lt_of_le_of_ne hhi fun he => hne (by rw [he])
      refine clear_mem hR.behind (List.mem_iff_getElem?.mpr ⟨idx, ?_⟩)
      rw [List.getElem?_take_of_lt hlt]
      exact hstmt
    · rw [stmtsAt_out hout] at hstmt
      cases hstmt
    · exact clear_mem (hR.inside bb hb) (List.mem_of_getElem? hstmt)

end Between

section Conditions

def AtLiteral (s : Site) (p : HeldPoint W) : Prop := (p.bb, p.idx) = (s.defBb, s.defIdx)

def AtConcat (s : Site) (p : HeldPoint W) : Prop := (p.bb, p.idx) = (s.useBb, s.useIdx)

/-- The points of a run, with the mark whether the literal has run since the last concat. -/
inductive Phase (rt : ListRuntime W) (f : MirFunction) (s : Site) (init : HeldPoint W) :
    Bool → HeldPoint W → Prop
  | start : Phase rt f s init false init
  | literal {b : Bool} {p q : HeldPoint W} : Phase rt f s init b p → AtLiteral s p →
    apartStep rt f p = .inl q → Phase rt f s init true q
  | concat {b : Bool} {p q : HeldPoint W} : Phase rt f s init b p → AtConcat s p →
    apartStep rt f p = .inl q → Phase rt f s init false q
  | other {b : Bool} {p q : HeldPoint W} : Phase rt f s init b p → ¬AtLiteral s p → ¬AtConcat s p →
    apartStep rt f p = .inl q → Phase rt f s init b q

/-- The list of the literal goes nowhere but into the concat, whose operands are all different. -/
structure Clean (f : MirFunction) (s : Site) : Prop where
  temp_local : f.argCount < s.temp
  dst_temp : s.dst ≠ s.temp
  left_temp : s.left ≠ s.temp
  ops_temp : ∀ op ∈ s.ops, op.local? ≠ some s.temp
  ops_left : ∀ op ∈ s.ops, op.local? ≠ some s.left
  ops_dst : ∀ op ∈ s.ops.tail, op.local? ≠ some s.dst
  wide : (tyOf f.locals s.dst).isNarrow = false

/-- Each concat has a literal of its own, and nothing between the two moves out of an operand of the
literal, reads what the literal has moved out, or drops its list. -/
structure Folds (rt : ListRuntime W) (f : MirFunction) (s : Site) (init : HeldPoint W) : Prop where
  fresh : ∀ p, Phase rt f s init false p → ¬AtConcat s p
  unmoved : ∀ p, Phase rt f s init true p → ¬AtConcat s p → ∀ op ∈ s.ops, ∀ l,
    op.local? = some l → .move l ∉ f.operandsAt p.bb p.idx
  unread : ∀ p, Phase rt f s init true p → ¬AtConcat s p → ∀ l, .move l ∈ s.ops →
    l ∉ f.readsAt p.bb p.idx
  undropped : ∀ p, Phase rt f s init true p → ∀ stmt, (f.stmtsAt p.bb)[p.idx]? = some stmt →
    stmt.kind ≠ .drop s.temp
  drained : ∀ p, Phase rt f s init false p → ∀ stmt, (f.stmtsAt p.bb)[p.idx]? = some stmt →
    stmt.kind = .drop s.temp → (p.state.held s.temp).getD [] = []
  /-- Without elements the concat hands on its left list, which must not be null. -/
  whole : s.ops = [] → ∀ p, Phase rt f s init true p → AtConcat s p →
    ∃ l xs, p.state.state.locals s.left = .word l ∧ l ≠ 0 ∧ p.state.state.world.lists l = some xs

variable {b : Bool} {p : HeldPoint W}

theorem Phase.between (hs : Found f s) (h : Phase rt f s init b p) (hb : b = true) :
    Between f s p.bb p.idx := by
  obtain ⟨span, hdef⟩ := hs.literal
  induction h with
  | start => cases hb
  | concat => cases hb
  | literal _ hat hstep _ =>
    obtain ⟨hpb, hpi⟩ := Prod.mk.inj hat
    rcases heldStep_place hstep with ⟨stmt, -, hqb, hqi, -⟩ | ⟨hnone, -⟩
    · rw [hqb, hqi, hpb, hpi]
      exact .start
    · rw [hpb, hpi, hdef] at hnone
      cases hnone
  | other _ _ hnot hstep ih =>
    rcases heldStep_place hstep with ⟨stmt, hstmt, hqb, hqi, -⟩ | ⟨hnone, hsucc, hqi⟩
    · rw [hqb, hqi]
      exact (ih hb).stmt hnot hstmt
    · rw [hqi]
      exact (ih hb).edge hnone hsucc

end Conditions

section Delay

variable {u v : HeldState W}

theorem zeroed_zeroed (v : Val) : v.zeroed.zeroed = v.zeroed := by
  cases v with
  | word w => rfl
  | lanes ws => simp [Val.zeroed]

theorem evalOperands_moved {rt : Runtime W} {ops : List Operand} {l : Local} (h : .move l ∈ ops)
    (u : Local → Val) : (rt.evalOperands u ops).2 l = (u l).zeroed := by
  induction ops generalizing u with
  | nil => cases h
  | cons op ops ih =>
    have hfirst : (rt.evalOperand u op).2 l = u l ∨ (rt.evalOperand u op).2 l = (u l).zeroed := by
      by_cases hop : op.moved? = some l
      · cases op with
        | move x =>
          obtain rfl : x = l := Option.some.inj hop
          exact .inr (setLocal_self _ _ _)
        | copy x => cases hop
        | const c => cases hop
      · exact .inl (evalOperand_frame hop)
    rw [Runtime.evalOperands]
    by_cases hrest : .move l ∈ ops
    · refine (ih hrest _).trans ?_
      rcases hfirst with hfirst | hfirst
      · rw [hfirst]
      · rw [hfirst, zeroed_zeroed]
    · obtain rfl : op = .move l := ((List.mem_cons.mp h).resolve_right hrest).symm
      refine (evalOperands_frame ops fun o ho hm => hrest ?_).trans (setLocal_self _ _ _)
      cases o with
      | move x =>
        obtain rfl : x = l := Option.some.inj hm
        exact ho
      | copy x => cases hm
      | const c => cases hm

/-- What may differ while the literal waits. -/
def Waits (s : Site) (l : Local) : Prop := l = s.temp ∨ .move l ∈ s.ops

/-- On the left the literal has run; on the right its operands have still to be evaluated. -/
structure Delayed (rt : ListRuntime W) (s : Site) (u v : HeldState W) : Prop where
  same : SameHeld (Waits s) s.temp u v
  elems : u.held s.temp = some ((rt.evalOperands v.state.locals s.ops).1.map Val.toWord)
  moved : ∀ l, .move l ∈ s.ops → u.state.locals l = (v.state.locals l).zeroed

theorem moved_of_local {op : Operand} {l : Local} (h : op.moved? = some l) : op = .move l := by
  cases op with
  | move x => exact congrArg Operand.move (Option.some.inj h)
  | copy x => cases h
  | const c => cases h

/-- The literal runs. -/
theorem Delayed.start (hclean : Clean f s) (h : SameHeld (· = s.temp) s.temp u v) :
    Delayed rt s ⟨{ u.state with locals := (rt.evalOperands u.state.locals s.ops).2 },
      hold u.held s.temp (some ((rt.evalOperands u.state.locals s.ops).1.map Val.toWord))⟩ v := by
  obtain ⟨hvals, -⟩ := evalOperands_agrees rt.toRuntime s.ops h.locals
    fun op hop x hx he => hclean.ops_temp op hop (hx.trans (congrArg some he))
  refine ⟨⟨fun x hx => ?_, h.world, h.log, fun x hx => ?_⟩, ?_, fun l hl => ?_⟩
  · have hnot := not_or.mp hx
    refine (evalOperands_frame s.ops fun op hop hm => hnot.2 ?_).trans (h.locals x hnot.1)
    rw [← moved_of_local hm]
    exact hop
  · exact (hold_of_ne hx).trans (h.held x hx)
  · rw [← hvals]
    exact hold_self
  · have htemp : l ≠ s.temp := fun he => hclean.ops_temp _ hl (congrArg some he)
    exact (evalOperands_moved hl _).trans (congrArg Val.zeroed (h.locals l htemp))

/-- The operands are evaluated at last, after the left list has been moved out. -/
theorem Delayed.finish (hclean : Clean f s) (h : Delayed rt s u v) :
    u.state.locals s.left = v.state.locals s.left ∧
    u.held s.temp = some ((rt.evalOperands (setLocal v.state.locals s.left
      (v.state.locals s.left).zeroed) s.ops).1.map Val.toWord) ∧
    AgreeOff (· = s.temp) (setLocal u.state.locals s.left (u.state.locals s.left).zeroed)
      (rt.evalOperands (setLocal v.state.locals s.left (v.state.locals s.left).zeroed) s.ops).2 := by
  have hleft : u.state.locals s.left = v.state.locals s.left :=
    h.same.locals s.left fun hw => hw.elim hclean.left_temp fun hm => hclean.ops_left _ hm rfl
  have hoff : AgreeOff (· = s.left) v.state.locals
      (setLocal v.state.locals s.left (v.state.locals s.left).zeroed) :=
    fun x hx => (setLocal_of_ne _ hx).symm
  obtain ⟨hvals, -⟩ := evalOperands_agrees rt.toRuntime s.ops hoff
    fun op hop x hx he => hclean.ops_left op hop (hx.trans (congrArg some he))
  refine ⟨hleft, by rw [h.elems, hvals], fun x hx => ?_⟩
  by_cases hm : .move x ∈ s.ops
  · have hne : x ≠ s.left := fun he => hclean.ops_left _ hm (congrArg some he)
    rw [setLocal_of_ne _ hne, h.moved x hm, evalOperands_moved hm, setLocal_of_ne _ hne]
  · rw [evalOperands_frame s.ops fun op hop hmoved => hm (by rw [← moved_of_local hmoved]; exact hop)]
    by_cases hl : x = s.left
    · rw [hl, setLocal_self, setLocal_self, hleft]
    · rw [setLocal_of_ne _ hl, setLocal_of_ne _ hl]
      exact h.same.locals x fun hw => hw.elim hx hm

/-- Steps that leave the operands alone. -/
theorem Delayed.keep {u' v' : HeldState W} (h : Delayed rt s u v)
    (hsame : SameHeld (Waits s) s.temp u' v') (hheld : u'.held s.temp = u.held s.temp)
    (hu : ∀ op ∈ s.ops, ∀ l, op.local? = some l → u'.state.locals l = u.state.locals l)
    (hv : ∀ op ∈ s.ops, ∀ l, op.local? = some l → v'.state.locals l = v.state.locals l) :
    Delayed rt s u' v' := by
  refine ⟨hsame, ?_, fun l hl => ?_⟩
  · rw [hheld, h.elems, evalOperands_congr s.ops fun op hop l hl => (hv op hop l hl).symm]
  · rw [hu _ hl l rfl, hv _ hl l rfl]
    exact h.moved l hl

end Delay

section Simulation

variable {p q : HeldPoint W} {stmt : Statement}

/-- The same place in the rewritten function, with the same values, or with the literal waiting. -/
structure Linked (rt : ListRuntime W) (f : MirFunction) (s : Site) (init p q : HeldPoint W) : Prop where
  bb : q.bb = p.bb
  rest : ((apply f s).stmtsAt p.bb).drop q.idx = rebuild s p.bb p.idx ((f.stmtsAt p.bb).drop p.idx)
  state : Phase rt f s init false p ∧ SameHeld (· = s.temp) s.temp p.state q.state ∨
    Phase rt f s init true p ∧ Delayed rt s p.state q.state

theorem SameHeld.weaken {S S' : Local → Prop} {temp : Local} {u v : HeldState W}
    (h : SameHeld S temp u v) (hle : ∀ x, S x → S' x) : SameHeld S' temp u v :=
  ⟨h.locals.weaken hle, h.world, h.log, h.held⟩

theorem Linked.same (h : Linked rt f s init p q) : SameHeld (Waits s) s.temp p.state q.state := by
  rcases h.state with ⟨-, hsame⟩ | ⟨-, hdelayed⟩
  · exact hsame.weaken fun x hx => .inl hx
  · exact hdelayed.same

theorem drop_cons {stmts : List Statement} {idx : Nat} (h : stmts[idx]? = some stmt) :
    stmts.drop idx = stmt :: stmts.drop (idx + 1) := by
  obtain ⟨hlt, rfl⟩ := List.getElem?_eq_some_iff.mp h
  exact List.drop_eq_getElem_cons hlt

/-- What the next statement becomes stands at the place in the rewritten function. -/
theorem Linked.next (h : Linked rt f s init p q) (hstmt : (f.stmtsAt p.bb)[p.idx]? = some stmt) :
    (∀ k a, (rewritten s p.bb p.idx stmt)[k]? = some a →
      ((apply f s).stmtsAt q.bb)[q.idx + k]? = some a) ∧
    ((apply f s).stmtsAt p.bb).drop (q.idx + (rewritten s p.bb p.idx stmt).length) =
      rebuild s p.bb (p.idx + 1) ((f.stmtsAt p.bb).drop (p.idx + 1)) := by
  have hrest := h.rest
  rw [drop_cons hstmt, rebuild] at hrest
  refine ⟨fun k a hk => ?_, ?_⟩
  · rw [h.bb, ← List.getElem?_drop, hrest,
      List.getElem?_append_left (List.getElem?_eq_some_iff.mp hk).1]
    exact hk
  · rw [← List.drop_drop, hrest, List.drop_left]

theorem private_reads (hs : Found f s) {bb : BasicBlockId} {idx : Nat}
    (hstmt : (f.stmtsAt bb)[idx]? = some stmt) (hlit : (bb, idx) ≠ (s.defBb, s.defIdx))
    (hcon : (bb, idx) ≠ (s.useBb, s.useIdx)) (hmarker : isMarkerFor stmt.kind s.temp = false) :
    reads stmt.kind s.temp = false := by
  obtain ⟨block, hb, hidx⟩ := block_of_stmt hstmt
  have hall := List.all_eq_true.mp hs.isPrivate (block, bb) (List.mem_zipIdx_iff_getElem?.mpr hb)
  rw [Bool.and_eq_true] at hall
  have hat := List.all_eq_true.mp hall.1 (stmt, idx) (List.mem_zipIdx_iff_getElem?.mpr hidx)
  have hplace : ¬((bb, idx) = (s.defBb, s.defIdx) ∨ (bb, idx) = (s.useBb, s.useIdx)) :=
    not_or.mpr ⟨hlit, hcon⟩
  simpa only [hplace, hmarker, decide_false, Bool.false_or, Bool.not_eq_true'] using hat

theorem private_term (hs : Found f s) (hclean : Clean f s) {bb : BasicBlockId} {tm : Terminator}
    (ht : f.terminatorAt bb = some tm) : s.temp ∉ tm.kind.reads := by
  by_cases hret : tm.kind = .ret
  · rw [hret]
    exact fun hmem => absurd (List.mem_singleton.mp hmem) (Nat.ne_of_gt (Nat.zero_lt_of_lt hclean.temp_local))
  · obtain ⟨block, hb, hterm⟩ := Option.bind_eq_some_iff.mp ht
    have hall := List.all_eq_true.mp hs.isPrivate (block, bb) (List.mem_zipIdx_iff_getElem?.mpr hb)
    rw [Bool.and_eq_true, Bool.not_eq_true'] at hall
    exact switchedOn_false.mp hall.2 tm hterm hret

theorem apart_temp (hs : Found f s) (hclean : Clean f s) : apart f s.temp = true := by
  obtain ⟨dspan, hdef⟩ := hs.literal
  obtain ⟨uspan, huse⟩ := hs.concat
  refine apart_iff.mpr ⟨hclean.temp_local, fun bb stmt hmem => ?_, fun bb tm ht _ => private_term hs hclean ht⟩
  obtain ⟨idx, hidx⟩ := List.getElem?_of_mem hmem
  by_cases hlit : (bb, idx) = (s.defBb, s.defIdx)
  · obtain ⟨rfl, rfl⟩ := Prod.mk.inj hlit
    obtain rfl := Option.some.inj (hidx.symm.trans hdef)
    exact apartIn_literal.mpr hclean.ops_temp
  · by_cases hcon : (bb, idx) = (s.useBb, s.useIdx)
    · obtain ⟨rfl, rfl⟩ := Prod.mk.inj hcon
      obtain rfl := Option.some.inj (hidx.symm.trans huse)
      exact apartIn_concat.mpr ⟨hclean.dst_temp, hclean.left_temp⟩
    · cases hmarker : isMarkerFor stmt.kind s.temp with
      | true => exact apartIn_marker hmarker
      | false => exact apartIn_of_reads (private_reads hs hidx hlit hcon hmarker)

theorem rewritten_other {bb : BasicBlockId} {idx : Nat} (hlit : (bb, idx) ≠ (s.defBb, s.defIdx))
    (hcon : (bb, idx) ≠ (s.useBb, s.useIdx)) :
    rewritten s bb idx stmt = if isMarkerFor stmt.kind s.temp then [] else [stmt] := by
  rw [rewritten, if_neg hcon, if_neg hlit]

theorem watched_of_op {op : Operand} {l : Local} (hop : op ∈ s.ops) (hl : op.local? = some l) :
    l ∈ s.watched := List.mem_cons_of_mem _ (List.mem_filterMap.mpr ⟨op, hop, hl⟩)

/-- A statement that clobbers nothing assigns and drops nothing that is watched. -/
theorem not_clobbered {watched : List Local} {l : Local} (h : clobbers stmt.kind watched = false)
    (hl : l ∈ watched) : stmt.dst? ≠ some l ∧ stmt.kind ≠ .drop l := by
  refine ⟨fun hd => ?_, fun hk => ?_⟩
  · obtain ⟨rval, hk⟩ := Statement.dst?_eq_some.mp hd
    rw [hk, clobbers, List.contains_iff_mem.mpr hl] at h
    cases h
  · rw [hk, clobbers, List.contains_iff_mem.mpr hl] at h
    cases h

theorem not_cleared {l : Local} (hdrop : stmt.kind ≠ .drop l)
    (hmove : .move l ∉ stmt.kind.evaluated) : l ∉ stmt.clears := by
  intro hmem
  unfold Statement.clears at hmem
  split at hmem
  next x hk => exact hdrop (by rw [hk, List.mem_singleton.mp hmem])
  next =>
    obtain ⟨op, hop, hm⟩ := List.mem_filterMap.mp hmem
    rw [moved_of_local hm] at hop
    exact hmove hop

theorem readsAt_of_stmt {bb : BasicBlockId} {idx : Nat} (hstmt : (f.stmtsAt bb)[idx]? = some stmt) :
    f.readsAt bb idx = stmt.reads := by
  rw [MirFunction.readsAt, hstmt]

theorem operandsAt_of_stmt {bb : BasicBlockId} {idx : Nat} (hstmt : (f.stmtsAt bb)[idx]? = some stmt) :
    f.operandsAt bb idx = stmt.kind.evaluated := by
  rw [MirFunction.operandsAt, hstmt]

theorem step_apply (hs : Found f s) (q : HeldPoint W) :
    apartStep rt (apply f s) q = heldStep rt (apart f) (apply f s) q := by
  rw [apartStep, apart_apply hs]

/-- One step on both sides, at a statement that stays. -/
theorem linked_other (hs : Found f s) (hfolds : Folds rt f s init) (h : Linked rt f s init p q)
    (hstmt : (f.stmtsAt p.bb)[p.idx]? = some stmt) (hlit : ¬AtLiteral s p) (hcon : ¬AtConcat s p)
    (hmarker : isMarkerFor stmt.kind s.temp = false) :
    (∃ p' q', apartStep rt f p = .inl p' ∧ apartStep rt (apply f s) q = .inl q' ∧
      Linked rt f s init p' q') ∨
    ∃ o, apartStep rt f p = .inr o ∧ apartStep rt (apply f s) q = .inr o := by
  have hkept : rewritten s p.bb p.idx stmt = [stmt] := by
    rw [rewritten_other hlit hcon, hmarker]
    rfl
  obtain ⟨hat, hrest⟩ := h.next hstmt
  rw [hkept] at hat hrest
  have hstmt' : ((apply f s).stmtsAt q.bb)[q.idx]? = some stmt := hat 0 stmt rfl
  obtain ⟨hdst, hread⟩ := not_read (private_reads hs hstmt hlit hcon hmarker) hmarker
  rw [step_apply hs]
  rcases h.state with ⟨hphase, hsame⟩ | ⟨hphase, hdelayed⟩
  · have hunread : ∀ x ∈ stmt.reads, ¬x = s.temp := fun x hx he => hread (he ▸ hx)
    rcases execList_agrees rt f.locals (P := apart f) hsame rfl hunread with
      ⟨u, v, hu, hv, hsame'⟩ | ⟨e, hu, hv⟩
    · have hstep := heldStep_ok (p := p) hstmt hu
      refine .inl ⟨_, _, hstep, heldStep_ok hstmt' hv, h.bb, hrest, .inl ⟨?_, hsame'⟩⟩
      exact hphase.other hlit hcon hstep
    · refine .inr ⟨_, heldStep_error hstmt hu, ?_⟩
      rw [heldStep_error hstmt' hv, hsame.world, hsame.log]
  · have hclear := (hphase.between hs rfl).clear hs hcon hstmt
    have hunread : ∀ x ∈ stmt.reads, ¬Waits s x := by
      rintro x hx (rfl | hm)
      · exact hread hx
      · exact hfolds.unread p hphase hcon x hm (by rwa [readsAt_of_stmt hstmt])
    rcases execList_agrees rt f.locals (P := apart f) hdelayed.same (.inl rfl) hunread with
      ⟨u, v, hu, hv, hsame'⟩ | ⟨e, hu, hv⟩
    · have hstep := heldStep_ok (p := p) hstmt hu
      refine .inl ⟨_, _, hstep, heldStep_ok hstmt' hv, h.bb, hrest,
        .inr ⟨hphase.other hlit hcon hstep, ?_⟩⟩
      have hkeep : ∀ op ∈ s.ops, ∀ l, op.local? = some l → stmt.dst? ≠ some l ∧ l ∉ stmt.clears := by
        intro op hop l hl
        obtain ⟨hnot, hdrop⟩ := not_clobbered hclear (watched_of_op hop hl)
        refine ⟨hnot, not_cleared hdrop ?_⟩
        rw [← operandsAt_of_stmt hstmt]
        exact hfolds.unmoved p hphase hcon op hop l hl
      refine hdelayed.keep hsame' (execList_held hu hdst hread) (fun op hop l hl => ?_) fun op hop l hl => ?_
      · obtain ⟨hnot, hclears⟩ := hkeep op hop l hl
        exact execList_frame hu hnot hclears
      · obtain ⟨hnot, hclears⟩ := hkeep op hop l hl
        exact execList_frame hv hnot hclears
    · refine .inr ⟨_, heldStep_error hstmt hu, ?_⟩
      rw [heldStep_error hstmt' hv, hdelayed.same.world, hdelayed.same.log]

/-- A step of the left side alone. -/
theorem Linked.ahead {u : HeldState W} (h : Linked rt f s init p q)
    (hstmt : (f.stmtsAt p.bb)[p.idx]? = some stmt) (hgone : rewritten s p.bb p.idx stmt = [])
    (hstate : Phase rt f s init false ⟨p.bb, p.idx + 1, u⟩ ∧ SameHeld (· = s.temp) s.temp u q.state ∨
      Phase rt f s init true ⟨p.bb, p.idx + 1, u⟩ ∧ Delayed rt s u q.state) :
    Linked rt f s init ⟨p.bb, p.idx + 1, u⟩ q := by
  have hrest := (h.next hstmt).2
  rw [hgone] at hrest
  exact ⟨h.bb, hrest, hstate⟩

theorem def_ne_use (hs : Found f s) : (s.defBb, s.defIdx) ≠ (s.useBb, s.useIdx) := by
  obtain ⟨dspan, hdef⟩ := hs.literal
  obtain ⟨uspan, huse⟩ := hs.concat
  intro he
  obtain ⟨hb, hi⟩ := Prod.mk.inj he
  rw [hb, hi, huse] at hdef
  simp at hdef

theorem linked_literal (hs : Found f s) (hclean : Clean f s) (hfolds : Folds rt f s init)
    (h : Linked rt f s init p q) (hat : AtLiteral s p) :
    ∃ u, apartStep rt f p = .inl ⟨p.bb, p.idx + 1, u⟩ ∧ Linked rt f s init ⟨p.bb, p.idx + 1, u⟩ q := by
  obtain ⟨span, hdef⟩ := hs.literal
  obtain ⟨hpb, hpi⟩ := Prod.mk.inj hat
  have hstmt : (f.stmtsAt p.bb)[p.idx]? = some ⟨.assign s.temp (.aggregate .list s.ops), span⟩ := by
    rw [hpb, hpi]
    exact hdef
  have hnot : ¬AtConcat s p := fun he => def_ne_use hs (hat.symm.trans he)
  have hexec : execList rt (apart f) f.locals p.state ⟨.assign s.temp (.aggregate .list s.ops), span⟩ =
      .ok ⟨{ p.state.state with locals := (rt.evalOperands p.state.state.locals s.ops).2 },
        hold p.state.held s.temp
          (some ((rt.evalOperands p.state.state.locals s.ops).1.map Val.toWord))⟩ := by
    simp only [execList, listOp, apart_temp hs hclean, if_true]
  have hstep := heldStep_ok (p := p) hstmt hexec
  have hgone : rewritten s p.bb p.idx ⟨.assign s.temp (.aggregate .list s.ops), span⟩ = [] := by
    rw [hpb, hpi, rewritten_def (def_ne_use hs)]
  -- a literal that runs again before the concat moves nothing
  have hsame : SameHeld (· = s.temp) s.temp p.state q.state := by
    rcases h.state with ⟨-, hsame⟩ | ⟨hphase, hdelayed⟩
    · exact hsame
    · refine ⟨fun x hx => hdelayed.same.locals x ?_, hdelayed.same.world, hdelayed.same.log,
        hdelayed.same.held⟩
      rintro (he | hm)
      · exact hx he
      · refine hfolds.unread p hphase hnot x hm ?_
        rw [readsAt_of_stmt hstmt]
        exact List.mem_filterMap.mpr ⟨_, hm, rfl⟩
  refine ⟨_, hstep, h.ahead hstmt hgone (.inr ⟨?_, Delayed.start hclean hsame⟩)⟩
  rcases h.state with ⟨hphase, -⟩ | ⟨hphase, -⟩
  · exact hphase.literal hat hstep
  · exact hphase.literal hat hstep

variable (rt f) in
theorem listOp_marker {temp : Local} {P : Local → Bool} (hP : P temp = true)
    (hmarker : isMarkerFor stmt.kind temp = true) (u : HeldState W) :
    stmt.kind = .drop temp ∧ listOp P stmt.kind = .drop temp ∨
      stmt.kind ≠ .drop temp ∧ execList rt P f.locals u stmt = .ok u := by
  cases hk : stmt.kind with
  | drop l =>
    rw [hk] at hmarker
    obtain rfl : l = temp := beq_iff_eq.mp hmarker
    exact .inl ⟨rfl, by rw [listOp, if_pos hP]⟩
  | storageLive l =>
    refine .inr ⟨?_, ?_⟩
    · intro he
      cases he
    · simp only [execList, hk, listOp, Runtime.execStmt, Except.map]
  | storageDead l =>
    refine .inr ⟨?_, ?_⟩
    · intro he
      cases he
    · simp only [execList, hk, listOp, Runtime.execStmt, Except.map]
  | _ =>
    rw [hk] at hmarker
    cases hmarker

theorem linked_marker (hs : Found f s) (hclean : Clean f s) (hfolds : Folds rt f s init)
    (h : Linked rt f s init p q) (hstmt : (f.stmtsAt p.bb)[p.idx]? = some stmt) (hlit : ¬AtLiteral s p)
    (hcon : ¬AtConcat s p) (hmarker : isMarkerFor stmt.kind s.temp = true) :
    ∃ u, apartStep rt f p = .inl ⟨p.bb, p.idx + 1, u⟩ ∧ Linked rt f s init ⟨p.bb, p.idx + 1, u⟩ q := by
  have hgone : rewritten s p.bb p.idx stmt = [] := by
    rw [rewritten_other hlit hcon, if_pos hmarker]
  rcases listOp_marker rt f (apart_temp hs hclean) hmarker p.state with
    ⟨hk, hop⟩ | ⟨-, hexec⟩
  · rcases h.state with ⟨hphase, hsame⟩ | ⟨hphase, -⟩
    · have hfree := hfolds.drained p hphase stmt hstmt hk
      have hexec : ∃ u, execList rt (apart f) f.locals p.state stmt = .ok u ∧
          u.state = p.state.state ∧ ∀ x, x ≠ s.temp → u.held x = p.state.held x := by
        simp only [execList, hop, hfree, freeAll, List.foldl_nil]
        refine ⟨_, rfl, ?_⟩
        split
        · exact ⟨rfl, fun x hx => hold_of_ne hx⟩
        · exact ⟨rfl, fun _ _ => rfl⟩
      obtain ⟨u, hexec, hstate, hheld⟩ := hexec
      have hstep := heldStep_ok (p := p) hstmt hexec
      refine ⟨u, hstep, h.ahead hstmt hgone (.inl ⟨hphase.other hlit hcon hstep, ?_⟩)⟩
      refine ⟨?_, ?_, ?_, fun x hx => (hheld x hx).trans (hsame.held x hx)⟩
      · rw [hstate]
        exact hsame.locals
      · rw [hstate]
        exact hsame.world
      · rw [hstate]
        exact hsame.log
    · exact absurd hk (hfolds.undropped p hphase stmt hstmt)
  · have hstep := heldStep_ok (p := p) hstmt hexec
    refine ⟨p.state, hstep, h.ahead hstmt hgone ?_⟩
    rcases h.state with ⟨hphase, hsame⟩ | ⟨hphase, hdelayed⟩
    · exact .inl ⟨hphase.other hlit hcon hstep, hsame⟩
    · exact .inr ⟨hphase.other hlit hcon hstep, hdelayed⟩

theorem move_of_clears {bb : BasicBlockId} {idx : Nat} {tm : Terminator} {l : Local}
    (hnone : (f.stmtsAt bb)[idx]? = none) (htm : f.terminatorAt bb = some tm)
    (h : l ∈ tm.kind.clears) : .move l ∈ f.operandsAt bb idx := by
  obtain ⟨kind, span⟩ := tm
  rw [MirFunction.operandsAt, hnone, htm]
  cases kind with
  | switchInt discr targets otherwise =>
    have hmoved : discr.moved? = some l := Option.mem_toList.mp h
    rw [moved_of_local hmoved]
    exact List.mem_singleton_self _
  | _ => cases h

/-- The ends of blocks. -/
theorem linked_term (hs : Found f s) (hclean : Clean f s) (hfolds : Folds rt f s init)
    (h : Linked rt f s init p q) (hb : p.bb < f.basicBlocks.length)
    (hnone : (f.stmtsAt p.bb)[p.idx]? = none) :
    (∃ p' q', apartStep rt f p = .inl p' ∧ apartStep rt (apply f s) q = .inl q' ∧
      Linked rt f s init p' q') ∨
    ∃ o, apartStep rt f p = .inr o ∧ apartStep rt (apply f s) q = .inr o := by
  obtain ⟨dspan, hdef⟩ := hs.literal
  obtain ⟨uspan, huse⟩ := hs.concat
  have hlit : ¬AtLiteral s p := by
    intro hat
    obtain ⟨hpb, hpi⟩ := Prod.mk.inj hat
    rw [hpb, hpi, hdef] at hnone
    cases hnone
  have hcon : ¬AtConcat s p := by
    intro hat
    obtain ⟨hpb, hpi⟩ := Prod.mk.inj hat
    rw [hpb, hpi, huse] at hnone
    cases hnone
  have hnone' : ((apply f s).stmtsAt q.bb)[q.idx]? = none := by
    have hrest := h.rest
    rw [List.drop_eq_nil_of_le (List.getElem?_eq_none_iff.mp hnone), rebuild] at hrest
    rw [h.bb]
    exact List.getElem?_eq_none (List.drop_eq_nil_iff.mp hrest)
  have hb' : q.bb < (apply f s).basicBlocks.length := by
    rw [apply_length, h.bb]
    exact hb
  have hsb : heldStep rt (apart f) (apply f s) q = _ := heldStep_term hb' hnone'
  have hlocals : (apply f s).locals = f.locals := rfl
  rw [apply_terminatorAt hs, h.bb, hlocals] at hsb
  have hsa : heldStep rt (apart f) f p = _ := heldStep_term hb hnone
  have hrest : ∀ target, ((apply f s).stmtsAt target).drop 0 =
      rebuild s target 0 ((f.stmtsAt target).drop 0) := by
    intro target
    rw [List.drop_zero, List.drop_zero]
    exact apply_stmtsAt hs target
  rw [step_apply hs]
  rcases h.state with ⟨hphase, hsame⟩ | ⟨hphase, hdelayed⟩
  · have hunread : ∀ tm, f.terminatorAt p.bb = some tm → ∀ x ∈ tm.kind.reads, ¬x = s.temp :=
      fun tm htm x hx he => private_term hs hclean htm (he ▸ hx)
    rcases execTerm_held rt f.locals hsame hunread with
      ⟨bb, u, v, hu, hv, hsame'⟩ | ⟨o, hu, hv⟩
    · rw [hu] at hsa
      rw [hv] at hsb
      exact .inl ⟨_, _, hsa, hsb, rfl, hrest bb, .inl ⟨hphase.other hlit hcon hsa, hsame'⟩⟩
    · rw [hu] at hsa
      rw [hv] at hsb
      exact .inr ⟨o, hsa, hsb⟩
  · have hunread : ∀ tm, f.terminatorAt p.bb = some tm → ∀ x ∈ tm.kind.reads, ¬Waits s x := by
      rintro tm htm x hx (rfl | hm)
      · exact private_term hs hclean htm hx
      · refine hfolds.unread p hphase hcon x hm ?_
        rw [MirFunction.readsAt, hnone, htm]
        exact hx
    rcases execTerm_held rt f.locals hdelayed.same hunread with ⟨bb, u, v, hu, hv, hsame'⟩ | ⟨o, hu, hv⟩
    · rw [hu] at hsa
      rw [hv] at hsb
      have hclears : ∀ op ∈ s.ops, ∀ l, op.local? = some l → ∀ tm, f.terminatorAt p.bb = some tm →
          l ∉ tm.kind.clears := by
        intro op hop l hl tm htm hmem
        refine hfolds.unmoved p hphase hcon op hop l hl ?_
        exact move_of_clears hnone htm hmem
      refine .inl ⟨_, _, hsa, hsb, rfl, hrest bb, .inr ⟨hphase.other hlit hcon hsa, ?_⟩⟩
      refine hdelayed.keep hsame' rfl (fun op hop l hl => ?_) fun op hop l hl => ?_
      · exact (execTerm_frame hu).2.2 l (hclears op hop l hl)
      · exact (execTerm_frame hv).2.2 l (hclears op hop l hl)
    · rw [hu] at hsa
      rw [hv] at hsb
      exact .inr ⟨o, hsa, hsb⟩

theorem concatMove_fault {l : Word} {ys : List Word} {w : World W} {e : Fault}
    (h : concatMove rt l (some ys) w = .error e) (v : Word) : push rt l v w = .error e := by
  simp only [concatMove] at h
  unfold push
  split at h
  next hl => cases h
  next hl =>
    rw [if_neg hl]
    split at h
    next => cases h
    next => exact h

theorem appends_ne_nil (span : Span) : appends s span ≠ [] := by
  cases hops : s.ops with
  | nil => simp [appends, hops]
  | cons op ops => simp [appends_pushes hops, pushes]

/-- What stands for the concat makes the list that the concat makes. -/
theorem execAll_appends (P : Local → Bool) (span : Span) (hclean : Clean f s) {v : HeldState W}
    {r : Word} {w : World W}
    (hwhole : s.ops = [] → ∃ l xs, v.state.locals s.left = .word l ∧ l ≠ 0 ∧
      v.state.world.lists l = some xs)
    (h : concatMove rt (v.state.locals s.left).toWord
      (some ((rt.evalOperands (setLocal v.state.locals s.left (v.state.locals s.left).zeroed)
        s.ops).1.map Val.toWord)) v.state.world = .ok (r, w)) :
    ∃ v', execAll rt P f.locals (appends s span) v = .ok v' ∧ v'.held = v.held ∧
      v'.state.world = w ∧ v'.state.log = v.state.log ∧ v'.state.locals s.dst = .word r ∧
      AgreeOff (· = s.dst) v'.state.locals
        (rt.evalOperands (setLocal v.state.locals s.left (v.state.locals s.left).zeroed) s.ops).2 := by
  cases hops : s.ops with
  | nil =>
    obtain ⟨l, xs, hleft, hl, hlist⟩ := hwhole hops
    have happ : appends s span = [⟨.assign s.dst (.use (.move s.left)), span⟩] := by
      rw [appends, hops]
    have hsame : putList v.state.world l (xs ++ []) = v.state.world := by
      rw [List.append_nil, putList]
      have hlists : (fun x => if x = l then some xs else v.state.world.lists x) = v.state.world.lists := by
        funext x
        split
        next he => rw [he, hlist]
        next => rfl
      rw [hlists]
    rw [hops] at h
    simp only [Runtime.evalOperands, List.map_nil, concatMove, hleft, Val.toWord, if_neg hl, hlist, hsame,
      Except.ok.injEq, Prod.mk.injEq] at h
    obtain ⟨rfl, rfl⟩ := h
    have hexec := exec_hand_on rt P span hclean.wide hleft
    let v' : HeldState W := ⟨⟨setLocal (setLocal v.state.locals s.left (.word 0)) s.dst (.word l),
      v.state.world, v.state.log⟩, v.held⟩
    have hall : execAll rt P f.locals (appends s span) v = .ok v' := by
      rw [happ, execAll, hexec]
      rfl
    refine ⟨v', hall, rfl, rfl, rfl, setLocal_self _ _ _, fun x hx => ?_⟩
    refine (setLocal_of_ne _ hx).trans ?_
    rw [Runtime.evalOperands, hleft]
    rfl
  | cons op ops =>
    rw [hops] at h
    rw [appends_pushes hops]
    have hdst : ∀ o ∈ ops, o.local? ≠ some s.dst := by
      have hall := hclean.ops_dst
      rwa [hops] at hall
    refine execAll_pushes hclean.wide hdst ?_
    rw [Runtime.evalOperands, List.map_cons] at h ⊢
    rw [pushAll_eq]
    exact h

variable (rt f s init) in
/-- One step on the left and some on the right, or both sides end. -/
def Follows (p q : HeldPoint W) : Prop :=
  (∃ p' q' m, 0 < m ∧ apartStep rt f p = .inl p' ∧ runs (apartStep rt (apply f s)) m q = .inl q' ∧
    Linked rt f s init p' q') ∨
  ∃ o, apartStep rt f p = .inr o ∧ apartStep rt (apply f s) q = .inr o

theorem Follows.one (h : (∃ p' q', apartStep rt f p = .inl p' ∧ apartStep rt (apply f s) q = .inl q' ∧
      Linked rt f s init p' q') ∨ ∃ o, apartStep rt f p = .inr o ∧ apartStep rt (apply f s) q = .inr o) :
    Follows rt f s init p q := by
  refine h.imp_left fun ⟨p', q', hp, hq, hlinked⟩ => ⟨p', q', 1, Nat.one_pos, hp, ?_, hlinked⟩
  exact (runs_one q).trans hq

/-- The concat on the left, and what stands for it on the right. -/
theorem linked_concat (hs : Found f s) (hclean : Clean f s) (hfolds : Folds rt f s init)
    (h : Linked rt f s init p q) (hat : AtConcat s p) : Follows rt f s init p q := by
  obtain ⟨span, huse⟩ := hs.concat
  obtain ⟨hpb, hpi⟩ := Prod.mk.inj hat
  have hstmt : (f.stmtsAt p.bb)[p.idx]? = some ⟨.assign s.dst (.call
      (.const (.function "__olive_list_concat_move")) [.move s.left, .copy s.temp]), span⟩ := by
    rw [hpb, hpi]
    exact huse
  have hbecomes : rewritten s p.bb p.idx ⟨.assign s.dst (.call
      (.const (.function "__olive_list_concat_move")) [.move s.left, .copy s.temp]), span⟩ =
        appends s span := by rw [hpb, hpi, rewritten_use]
  obtain ⟨hat', hrest⟩ := h.next hstmt
  rw [hbecomes] at hat' hrest
  have hstep' : apartStep rt (apply f s) = heldStep rt (apart f) (apply f s) := funext (step_apply hs)
  rcases h.state with ⟨hphase, -⟩ | ⟨hphase, hdelayed⟩
  · exact absurd hat (hfolds.fresh p hphase)
  obtain ⟨hleft, helems, hoff⟩ := hdelayed.finish hclean
  have hexec : execList rt (apart f) f.locals p.state ⟨.assign s.dst (.call
      (.const (.function "__olive_list_concat_move")) [.move s.left, .copy s.temp]), span⟩ =
      (concatMove rt (p.state.state.locals s.left).toWord (p.state.held s.temp)
        p.state.state.world).map fun r =>
          ⟨assignList rt f.locals p.state.state (setLocal p.state.state.locals s.left
            (p.state.state.locals s.left).zeroed) s.dst r,
            hold p.state.held s.temp ((p.state.held s.temp).map fun _ => [])⟩ := by
    simp [execList, listOp, apart_temp hs hclean, Runtime.evalOperand]
  have hwhole : s.ops = [] → ∃ l xs, q.state.state.locals s.left = .word l ∧ l ≠ 0 ∧
      q.state.state.world.lists l = some xs := by
    rw [← hleft, ← hdelayed.same.world]
    exact fun hops => hfolds.whole hops p hphase hat
  cases hr : concatMove rt (p.state.state.locals s.left).toWord (p.state.held s.temp)
      p.state.state.world with
  | error e =>
    rw [hr] at hexec
    rw [helems, hleft, hdelayed.same.world] at hr
    refine .inr ⟨_, heldStep_error hstmt hexec, ?_⟩
    rw [hstep', hdelayed.same.world, hdelayed.same.log]
    cases hops : s.ops with
    | nil =>
      obtain ⟨l, xs, hword, hl, hlist⟩ := hwhole hops
      rw [hops] at hr
      simp only [concatMove, hword, Val.toWord, if_neg hl, hlist] at hr
      cases hr
    | cons op ops =>
      have hfirst : (appends s span)[0]? = some (pushStmt s.dst span s.left op) := by
        rw [appends_pushes hops]
        rfl
      refine heldStep_error (hat' 0 _ hfirst) ?_
      rw [exec_push, concatMove_fault hr]
      rfl
  | ok r =>
    rw [hr] at hexec
    rw [helems, hleft, hdelayed.same.world] at hr
    have hstep := heldStep_ok (p := p) hstmt hexec
    obtain ⟨v, happ, hheld, hworld, hlog, hword, hagree⟩ :=
      execAll_appends (apart f) span hclean hwhole hr
    have hruns : runs (heldStep rt (apart f) (apply f s)) (appends s span).length
        ⟨q.bb, q.idx, q.state⟩ = .inl ⟨q.bb, q.idx + (appends s span).length, v⟩ :=
      runs_execAll hat' happ
    rw [← hstep'] at hruns
    refine .inl ⟨_, _, (appends s span).length, List.length_pos_iff.mpr (appends_ne_nil span), hstep,
      hruns, h.bb, hrest, .inl ⟨?_, ?_⟩⟩
    · exact hphase.concat hat hstep
    · refine ⟨fun x hx => ?_, hworld.symm, ?_, fun x hx => ?_⟩
      · by_cases hd : x = s.dst
        · rw [hd, hword]
          exact (setLocal_self _ _ _).trans (fit_word hclean.wide _)
        · refine ((setLocal_of_ne _ hd).trans (hoff x hx)).trans (hagree x hd).symm
      · exact hdelayed.same.log.trans hlog.symm
      · rw [hheld]
        exact (hold_of_ne hx).trans (hdelayed.same.held x hx)

/-- Every point is followed, or the left side runs alone: at the literal and at what goes with it. -/
theorem linked_follows (hs : Found f s) (hclean : Clean f s) (hfolds : Folds rt f s init)
    (h : Linked rt f s init p q) : Follows rt f s init p q ∨
      ∃ p', apartStep rt f p = .inl p' ∧ Linked rt f s init p' q ∧
        (f.stmtsAt p'.bb).length - p'.idx < (f.stmtsAt p.bb).length - p.idx := by
  have hahead : ∀ stmt, (f.stmtsAt p.bb)[p.idx]? = some stmt →
      (∃ u, apartStep rt f p = .inl ⟨p.bb, p.idx + 1, u⟩ ∧ Linked rt f s init ⟨p.bb, p.idx + 1, u⟩ q) →
      ∃ p', apartStep rt f p = .inl p' ∧ Linked rt f s init p' q ∧
        (f.stmtsAt p'.bb).length - p'.idx < (f.stmtsAt p.bb).length - p.idx := by
    rintro stmt hstmt ⟨u, hstep, hlinked⟩
    have hlt := (List.getElem?_eq_some_iff.mp hstmt).1
    exact ⟨_, hstep, hlinked, by simp only; omega⟩
  by_cases hb : p.bb < f.basicBlocks.length
  · cases hstmt : (f.stmtsAt p.bb)[p.idx]? with
    | none => exact .inl (.one (linked_term hs hclean hfolds h hb hstmt))
    | some stmt =>
      by_cases hcon : AtConcat s p
      · exact .inl (linked_concat hs hclean hfolds h hcon)
      by_cases hlit : AtLiteral s p
      · exact .inr (hahead stmt hstmt (linked_literal hs hclean hfolds h hlit))
      cases hmarker : isMarkerFor stmt.kind s.temp with
      | true => exact .inr (hahead stmt hstmt (linked_marker hs hclean hfolds h hstmt hlit hcon hmarker))
      | false => exact .inl (.one (linked_other hs hfolds h hstmt hlit hcon hmarker))
  · refine .inl (.inr ⟨_, heldStep_out (Nat.le_of_not_lt hb), ?_⟩)
    rw [step_apply hs, h.same.world, h.same.log]
    refine heldStep_out ?_
    rw [apply_length, h.bb]
    exact Nat.le_of_not_lt hb

theorem linked_matched (hs : Found f s) (hclean : Clean f s) (hfolds : Folds rt f s init)
    (p q : HeldPoint W) (h : Linked rt f s init p q) :
    Matched (apartStep rt f) (apartStep rt (apply f s)) (Linked rt f s init) Eq p q := by
  refine matched_of_ranked (fun p => (f.stmtsAt p.bb).length - p.idx) (fun p q h => ?_) p q h
  refine (linked_follows hs hclean hfolds h).imp_left fun hfollows => ?_
  rcases hfollows with ⟨p', q', m, hm, hp, hq, hlinked⟩ | ⟨o, hp, hq⟩
  · exact ⟨1, m, Nat.one_pos, hm, .inl ⟨p', q', (runs_one p).trans hp, hq, hlinked⟩⟩
  · exact .one (.inr ⟨o, o, hp, hq, rfl⟩)

/-- What the left side gets to, the right side gets to. -/
theorem linked_reaches (hs : Found f s) (hclean : Clean f s) (hfolds : Folds rt f s init)
    (h : Linked rt f s init p q) {p' : HeldPoint W} (hp : Reaches (apartStep rt f) p p') :
    ∃ q', Reaches (apartStep rt (apply f s)) q q' ∧ Linked rt f s init p' q' := by
  refine hp.invariant (P := fun x => ∃ q', Reaches (apartStep rt (apply f s)) q q' ∧
    Linked rt f s init x q') ?_ ⟨q, .refl q, h⟩
  rintro x y ⟨q', hq', hlinked⟩ hstep
  rcases linked_follows hs hclean hfolds hlinked with (⟨x', y', m, -, hx, hy, hnext⟩ | ⟨o, hx, -⟩) |
    ⟨x', hx, hnext, -⟩
  · obtain rfl := Sum.inl.inj (hstep.symm.trans hx)
    exact ⟨y', hq'.trans ⟨m, hy⟩, hnext⟩
  · rw [hstep] at hx
    cases hx
  · obtain rfl := Sum.inl.inj (hstep.symm.trans hx)
    exact ⟨q', hq', hnext⟩

/-- Both functions start alike. -/
theorem linked_start (hs : Found f s) (state : HeldState W) :
    Linked rt f s ⟨0, 0, state⟩ ⟨0, 0, state⟩ ⟨0, 0, state⟩ := by
  refine ⟨rfl, ?_, .inl ⟨.start, fun _ _ => rfl, rfl, rfl, fun _ _ => rfl⟩⟩
  rw [List.drop_zero, List.drop_zero]
  exact apply_stmtsAt hs 0

/-- One fold changes no run. -/
theorem fold_yields (hs : Found f s) (hclean : Clean f s) {state : HeldState W}
    (hfolds : Folds rt f s ⟨0, 0, state⟩) (o : Outcome W) :
    Yields (apartStep rt f) ⟨0, 0, state⟩ o ↔ Yields (apartStep rt (apply f s)) ⟨0, 0, state⟩ o :=
  yields_iff_of_matched (linked_matched hs hclean hfolds) (linked_start hs state) o

/-- At the concat the operands have the values that the literal put in its list. -/
theorem fold_holds (hs : Found f s) (hclean : Clean f s) {state : HeldState W}
    (hfolds : Folds rt f s ⟨0, 0, state⟩) (hp : Reaches (apartStep rt f) ⟨0, 0, state⟩ p)
    (hat : AtConcat s p) : ∃ q, Reaches (apartStep rt (apply f s)) ⟨0, 0, state⟩ q ∧
      (∃ span, ∀ k a, (appends s span)[k]? = some a → ((apply f s).stmtsAt q.bb)[q.idx + k]? = some a) ∧
      p.state.state.world = q.state.state.world ∧
      p.state.state.locals s.left = q.state.state.locals s.left ∧
      p.state.held s.temp = some ((rt.evalOperands q.state.state.locals s.ops).1.map Val.toWord) := by
  obtain ⟨span, huse⟩ := hs.concat
  obtain ⟨q, hq, hlinked⟩ := linked_reaches hs hclean hfolds (linked_start hs state) hp
  rcases hlinked.state with ⟨hphase, -⟩ | ⟨-, hdelayed⟩
  · exact absurd hat (hfolds.fresh p hphase)
  obtain ⟨hpb, hpi⟩ := Prod.mk.inj hat
  rw [← hpb, ← hpi] at huse
  have hnext := (hlinked.next huse).1
  rw [hpb, hpi, rewritten_use] at hnext
  exact ⟨q, hq, ⟨span, hnext⟩, hdelayed.same.world, (hdelayed.finish hclean).1, hdelayed.elems⟩

end Simulation

end ListAppend

end Olive
