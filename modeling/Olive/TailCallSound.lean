import Olive.ActivationFrame
import Olive.TailCall
import Mathlib.Logic.Relation

/-! A function does the same when its self tail calls jump to its start. -/

namespace Olive

namespace TailCall

open Activation

variable {W : Type} {rt : ActivationRuntime W} {f g : MirFunction} {bb : BasicBlockId} {idx : Nat}
  {l : Local}

/-- The local is a parameter, or assigned on every path to the place. -/
def Assigned (f : MirFunction) (bb : BasicBlockId) (idx : Nat) (l : Local) : Prop :=
  f.isParam l ∨ ¬ Untouched f (· = l) bb idx

/-- Each activation assigns its locals before it reads them. -/
def ReadsAssigned (f : MirFunction) : Prop :=
  ∀ bb idx l, l ∈ f.readsAt bb idx → Assigned f bb idx l

structure WellFormed (f : MirFunction) : Prop where
  params : f.argCount < f.locals.length
  reads : ∀ bb idx l, l ∈ f.readsAt bb idx → l < f.locals.length
  targets : ∀ bb target, target ∈ f.successors bb → target < f.basicBlocks.length

/-- A value that an operand can have. -/
def IsValue (rt : ActivationRuntime W) (decls : List LocalDecl) (op : Operand) (v : ClValue) : Prop :=
  match op with
  | .copy l | .move l => v.type = clType (tyOf decls l)
  | .const c => v = constant rt c

/-- What parameter `j` holds after the argument `op` has been staged. -/
def staged (rt : ActivationRuntime W) (f : MirFunction) (j : Nat) (op : Operand) (w : W) (v : ClValue) :
    ClValue :=
  (clType (tyOf f.locals (j + 1))).read (convert rt .other (tyOf f.locals (j + 1)) w
    ((clType .any).read (convert rt (source f.locals (.use op)) .any w v)))

/-- What the function returns after a tail call has given `v`. -/
def returned (rt : ActivationRuntime W) (f : MirFunction) (call : Rvalue) (dst : Local) (op : Operand)
    (w : W) (v : ClValue) : ClValue :=
  (clType (tyOf f.locals 0)).read (convert rt (source f.locals (.use op)) (tyOf f.locals 0) w
    ((clType (tyOf f.locals dst)).read (convert rt (source f.locals call) (tyOf f.locals dst) w v)))

/-- The point is at a self tail call. -/
def AtTail (f : MirFunction) (q : ActPoint W) (dst : Local) (op : Operand) (args : List Operand) : Prop :=
  ∃ pre s s' span, f.basicBlocks[q.bb]? = some
      ⟨pre ++ [⟨.assign dst (.call (.const (.function f.name)) args), s⟩, ⟨.assign 0 (.use op), s'⟩],
        some ⟨.ret, span⟩⟩ ∧
    q.idx = pre.length ∧ op.local? = some dst ∧ args.length = f.argCount

/-- The tail call may jump: the call makes no future, what staging gives the parameters is what
passing gives them, and the variable of the call keeps values of the return type. -/
structure Kept (rt : ActivationRuntime W) (f : MirFunction) (q : ActPoint W) (dst : Local) (op : Operand)
    (args : List Operand) : Prop where
  sync : f.isAsync = false
  passed : ∀ j arg val, args[j]? = some arg →
    (evalOperands rt f.locals q.state.locals args).1[j]? = some val →
    staged rt f j arg q.state.world val = (clType (tyOf f.locals (j + 1))).read
      (pass rt (isSignedOperand f.locals arg) (clType (tyOf f.locals (j + 1))) val)
  result : ∀ w v, v.type = clType (tyOf f.locals 0) →
    returned rt f (.call (.const (.function f.name)) args) dst op w v = v

/-- One point of a run after another, the points of the calls included. -/
inductive Next (rt : ActivationRuntime W) (f : MirFunction) (p : ActPoint W) : ActPoint W → Prop
  | call {block : BasicBlock} {stmt : Statement} {dst : Local} {rval : Rvalue} {args : List Operand} :
    f.basicBlocks[p.bb]? = some block → block.statements[p.idx]? = some stmt →
    selfCall? f stmt = some (dst, rval, args) →
    Next rt f p (start f (passed rt f args (evalOperands rt f.locals p.state.locals args).1) p.state.world)
  | back {block : BasicBlock} {stmt : Statement} {dst : Local} {rval : Rvalue} {args : List Operand}
    {v : ClValue} {w : W} :
    f.basicBlocks[p.bb]? = some block → block.statements[p.idx]? = some stmt →
    selfCall? f stmt = some (dst, rval, args) →
    Ends rt f (passed rt f args (evalOperands rt f.locals p.state.locals args).1) p.state.world (.ok (v, w)) →
    Next rt f p ⟨p.bb, p.idx + 1,
      assign rt f.locals rval dst (evalOperands rt f.locals p.state.locals args).2 v w⟩
  | stmt {block : BasicBlock} {stmt : Statement} {s : ActState W} :
    f.basicBlocks[p.bb]? = some block → block.statements[p.idx]? = some stmt →
    selfCall? f stmt = none → execStmt rt f.locals p.state stmt = .ok s → Next rt f p ⟨p.bb, p.idx + 1, s⟩
  | term {block : BasicBlock} {bb : BasicBlockId} {s : ActState W} :
    f.basicBlocks[p.bb]? = some block → block.statements[p.idx]? = none →
    execTerm rt f.locals p.state block.terminator = .inl (bb, s) → Next rt f p ⟨bb, 0, s⟩

/-- Every self tail call that the run from `p` makes may jump. -/
def AllKept (rt : ActivationRuntime W) (f : MirFunction) (p : ActPoint W) : Prop :=
  ∀ q dst op args, Relation.ReflTransGen (Next rt f) p q → AtTail f q dst op args → Kept rt f q dst op args

theorem AllKept.next {p q : ActPoint W} (h : AllKept rt f p) (hnext : Next rt f p q) : AllKept rt f q :=
  fun r dst op args hr => h r dst op args (hr.head hnext)

section Paths

theorem assigned_next {stmt : Statement} (hs : (f.stmtsAt bb)[idx]? = some stmt)
    (h : Assigned f bb (idx + 1) l) : Assigned f bb idx l ∨ stmt.dst? = some l := by
  by_contra hnot
  obtain ⟨hbefore, hdst⟩ := not_or.mp hnot
  obtain ⟨hparam, huntouched⟩ := not_or.mp hbefore
  refine h.elim hparam fun hfresh => hfresh ?_
  refine (not_not.mp huntouched).stmt hs fun x hx hd => hdst ?_
  rw [hd, show x = l from hx]

theorem assigned_edge {target : BasicBlockId} (hs : (f.stmtsAt bb)[idx]? = none)
    (ht : target ∈ f.successors bb) (h : Assigned f target 0 l) : Assigned f bb idx l :=
  h.imp_right fun hfresh huntouched => hfresh (huntouched.edge hs ht)

theorem assigned_entry (h : Assigned f 0 0 l) : f.isParam l := h.resolve_right fun hfresh => hfresh .entry

end Paths

section Staging

variable {decls : List LocalDecl} {base : Local} {span : Span} {args : List Operand}

theorem stageArgs_cons {arg : Operand} :
    stageArgs base span (arg :: args) = ⟨.assign base (.use arg), span⟩ :: stageArgs (base + 1) span args := by
  unfold stageArgs
  rw [List.mapIdx_cons]
  refine congrArg₂ _ rfl (congrArg (args.mapIdx ·) ?_)
  funext j a
  rw [Nat.add_assoc, Nat.add_comm 1 j]

theorem execStmt_use {u : Locals} {w : W} {dst : Local} {op : Operand} :
    execStmt rt decls ⟨u, w⟩ ⟨.assign dst (.use op), span⟩ =
      .ok ⟨Activation.setLocal (evalOperand rt decls u op).2 dst (convert rt (source decls (.use op)) (tyOf decls dst) w
        (evalOperand rt decls u op).1), w⟩ := rfl

variable (rt span) in
/-- Staging reads what the call reads, and fills the variables from `base` on. -/
theorem execAll_stageArgs {R : Local → Prop} {u v : Locals} {w : W} (hR : ∀ l, R l → l < base)
    (hargs : ∀ op ∈ args, ∀ l, op.local? = some l → R l) (h : AgreeOn decls R u v) :
    ∃ v', execAll rt decls (stageArgs base span args) ⟨v, w⟩ = .ok ⟨v', w⟩ ∧
      (∀ k op val, args[k]? = some op → (evalOperands rt decls u args).1[k]? = some val →
        v' (base + k) = convert rt (source decls (.use op)) (tyOf decls (base + k)) w val) ∧
      ∀ l, l < base → ¬ R l → v' l = v l := by
  induction args generalizing base u v with
  | nil => exact ⟨v, rfl, fun k op val hk => by simp at hk, fun _ _ _ => rfl⟩
  | cons arg rest ih =>
    obtain ⟨hval, hagree⟩ := evalOperand_agree rt h (hargs arg List.mem_cons_self)
    have hkept : ∀ l, ¬ R l → (evalOperand rt decls v arg).2 l = v l := by
      intro l hl
      cases arg with
      | move m =>
        refine if_neg fun he => hl ?_
        rw [show l = m from he]
        exact hargs (.move m) List.mem_cons_self m rfl
      | copy m => rfl
      | const c => rfl
    have hnext : AgreeOn decls R (evalOperand rt decls u arg).2
        (Activation.setLocal (evalOperand rt decls v arg).2 base
          (convert rt (source decls (.use arg)) (tyOf decls base) w (evalOperand rt decls v arg).1)) := by
      intro l hl
      rw [readLocal_setLocal_of_ne _ (Nat.ne_of_lt (hR l hl))]
      exact hagree l hl
    obtain ⟨v', hexec, hstaged, hold⟩ := ih (fun l hl => Nat.lt_succ_of_lt (hR l hl))
      (fun op hop => hargs op (List.mem_cons_of_mem _ hop)) hnext
    have hbase : ¬ R base := fun hb => Nat.lt_irrefl base (hR base hb)
    refine ⟨v', ?_, ?_, fun l hl hnot => ?_⟩
    · rw [stageArgs_cons, execAll, execStmt_use]
      exact hexec
    · intro k op val hop hv
      cases k with
      | zero =>
        obtain rfl : arg = op := Option.some.inj hop
        obtain rfl : (evalOperand rt decls u arg).1 = val := Option.some.inj hv
        rw [Nat.add_zero, hold base (Nat.lt_succ_self base) hbase, hval]
        exact if_pos rfl
      | succ k =>
        have hplace : base + (k + 1) = base + 1 + k := Nat.add_right_comm base k 1
        rw [hplace]
        exact hstaged k op val hop hv
    · rw [hold l (Nat.lt_succ_of_lt hl) hnot]
      exact (if_neg (Nat.ne_of_lt hl)).trans (hkept l hnot)

variable (rt decls span) in
/-- The parameters get the staged values. -/
theorem execAll_copyParams (u : Locals) (w : W) {n : Nat} (hbase : n < base) :
    ∃ u', execAll rt decls (copyParams base span n) ⟨u, w⟩ = .ok ⟨u', w⟩ ∧
      (∀ j, j < n → u' (j + 1) = convert rt (source decls (.use (.copy (base + j)))) (tyOf decls (j + 1)) w
        (readLocal decls u (base + j))) ∧
      ∀ l, n < l → u' l = u l := by
  induction n with
  | zero => exact ⟨u, rfl, fun j hj => absurd hj (Nat.not_lt_zero j), fun _ _ => rfl⟩
  | succ n ih =>
    obtain ⟨u', hexec, hset, hold⟩ := ih (by omega)
    have hread : readLocal decls u' (base + n) = readLocal decls u (base + n) := by
      rw [readLocal, hold _ (by omega), readLocal]
    refine ⟨Activation.setLocal u' (n + 1) (convert rt (source decls (.use (.copy (base + n)))) (tyOf decls (n + 1)) w
      (readLocal decls u (base + n))), ?_, fun j hj => ?_, fun l hl => ?_⟩
    · rw [copyParams, List.range_succ, List.map_append]
      refine (execAll_append hexec).trans ?_
      rw [List.map_cons, List.map_nil, execAll, execStmt_use, ← hread]
      rfl
    · rcases Nat.lt_succ_iff_lt_or_eq.mp hj with hj | rfl
      · rw [Activation.setLocal, if_neg (Nat.ne_of_lt (Nat.succ_lt_succ hj))]
        exact hset j hj
      · exact if_pos rfl
    · rw [Activation.setLocal, if_neg (Nat.ne_of_gt hl)]
      exact hold l (Nat.lt_of_succ_lt hl)

/-- Locals that no one declared are taken for `Any`. -/
theorem tyOf_undeclared (h : decls.length ≤ l) : tyOf decls l = .any := by
  rw [tyOf, List.getElem?_eq_none h]

theorem evalOperand_isValue {u : Locals} {op : Operand} : IsValue rt decls op (evalOperand rt decls u op).1 := by
  cases op with
  | copy l => exact ClType.read_type _ _
  | move l => exact ClType.read_type _ _
  | const c => rfl

theorem evalOperands_isValue {u : Locals} {k : Nat} {op : Operand} {val : ClValue}
    (hop : args[k]? = some op) (hv : (evalOperands rt decls u args).1[k]? = some val) :
    IsValue rt decls op val := by
  induction args generalizing u k with
  | nil => cases hop
  | cons arg rest ih =>
    cases k with
    | zero =>
      obtain rfl : arg = op := Option.some.inj hop
      obtain rfl : (evalOperand rt decls u arg).1 = val := Option.some.inj hv
      exact evalOperand_isValue
    | succ k => exact ih hop hv

theorem evalOperands_length (u : Locals) : (evalOperands rt decls u args).1.length = args.length := by
  induction args generalizing u with
  | nil => rfl
  | cons arg rest ih => exact congrArg (· + 1) (ih _)

theorem jumpBlock_eq {header : BasicBlockId} {pre : List Statement} {a b : Statement}
    {term : Option Terminator} :
    jumpBlock header base args ⟨pre ++ [a, b], term⟩ =
      ⟨pre ++ (stageArgs base b.span args ++ copyParams base b.span args.length),
        some ⟨.goto header, b.span⟩⟩ := by
  have hdrop : (pre ++ [a, b]).dropLast.dropLast = pre := by simp [List.dropLast_append_of_ne_nil]
  have hlast : (pre ++ [a, b]).getLast? = some b := by simp
  simp only [jumpBlock, hdrop, hlast, List.append_assoc, Option.map_some, Option.getD_some]

theorem not_self_call {stmt : Statement} (h : stmt ∈ stageArgs base span args ∨
    stmt ∈ copyParams base span args.length) : selfCall? g stmt = none := by
  rcases h with h | h
  · obtain ⟨j, hj, rfl⟩ := List.mem_mapIdx.mp h
    rfl
  · obtain ⟨j, -, rfl⟩ := List.mem_map.mp h
    rfl

/-- The jump takes the staged arguments to the start. -/
theorem run_jump {R : Local → Prop} {u v : Locals} {w : W} {pre : List Statement} {a b : Statement}
    {term : Option Terminator} (hg : Rewritten f g) (hparams : f.argCount < f.locals.length)
    (hb : g.basicBlocks[bb]? = some (jumpBlock f.basicBlocks.length base args ⟨pre ++ [a, b], term⟩))
    (hbase : f.locals.length ≤ base) (hlen : args.length = f.argCount)
    (hR : ∀ l, R l → l < f.locals.length) (hargs : ∀ op ∈ args, ∀ l, op.local? = some l → R l)
    (h : AgreeOn f.locals R u v) :
    ∃ u₁ k, (∀ n, Activation.run rt g (n + k) ⟨bb, pre.length, ⟨v, w⟩⟩ =
        Activation.run rt g n ⟨f.basicBlocks.length, 0, ⟨u₁, w⟩⟩) ∧
      ∀ j arg val, args[j]? = some arg → (evalOperands rt f.locals u args).1[j]? = some val →
        readLocal f.locals u₁ (j + 1) = staged rt f j arg w val := by
  rw [jumpBlock_eq] at hb
  obtain ⟨v', hstage, hstaged, -⟩ := execAll_stageArgs rt b.span (w := w)
    (fun l hl => Nat.lt_of_lt_of_le (hR l hl) hbase) hargs h
  have hroom : args.length < base := by omega
  obtain ⟨u₁, hcopy, hset, -⟩ := execAll_copyParams rt f.locals b.span v' w hroom
  have hall : execAll rt g.locals
      (stageArgs base b.span args ++ copyParams base b.span args.length) ⟨v, w⟩ = .ok ⟨u₁, w⟩ := by
    rw [execAll_types hg.types]
    exact (execAll_append hstage).trans hcopy
  generalize hjump : stageArgs base b.span args ++ copyParams base b.span args.length = jump at hb hall
  refine ⟨u₁, 1 + jump.length, fun n => ?_, ?_⟩
  · have hrow : Activation.run rt g (n + 1 + jump.length) ⟨bb, pre.length, ⟨v, w⟩⟩ =
        Activation.run rt g (n + 1) ⟨bb, pre.length + jump.length, ⟨u₁, w⟩⟩ := by
      refine run_execAll hb (fun k stmt hk => ?_) (fun stmt hstmt => ?_) hall
      · rw [List.getElem?_append_right (Nat.le_add_right _ _), Nat.add_sub_cancel_left]
        exact hk
      · rw [← hjump] at hstmt
        exact not_self_call (List.mem_append.mp hstmt)
    rw [← Nat.add_assoc]
    refine hrow.trans (run_goes hb ?_ rfl)
    exact List.getElem?_eq_none (by simp)
  · intro j arg val harg hval
    have hj : j < args.length := (List.getElem?_eq_some_iff.mp harg).1
    have hany : tyOf f.locals (base + j) = .any := tyOf_undeclared (Nat.le_add_right_of_le hbase)
    have hother : source f.locals (.use (.copy (base + j))) = .other := by
      simp only [source, hany]
    rw [readLocal, hset j hj, hother, readLocal, hstaged j arg val harg hval, hany, staged]

end Staging

section Simulation

variable {p p' : ActPoint W} {o : ActOutcome W} {n : Nat} {block : BasicBlock}

/-- The same place in the rewritten function, with the same values in the locals that the place may
read; the others may be left from an earlier round. -/
structure Linked (f : MirFunction) (p p' : ActPoint W) : Prop where
  inside : p.bb < f.basicBlocks.length
  bb : p'.bb = home f p.bb
  idx : p'.idx = p.idx
  world : p.state.world = p'.state.world
  same : AgreeOn f.locals (Assigned f p.bb p.idx) p.state.locals p'.state.locals
  /-- A tail call is taken whole. -/
  before : ∀ block args, f.basicBlocks[p.bb]? = some block →
    tailCallArgs block f.name f.argCount = some args → p.idx + 2 ≤ block.statements.length

theorem linked_start (hf : 0 < f.basicBlocks.length) {u v : Locals} {w : W}
    (h : ∀ j, j < f.argCount → readLocal f.locals u (j + 1) = readLocal f.locals v (j + 1)) :
    Linked f ⟨0, 0, ⟨u, w⟩⟩ ⟨f.basicBlocks.length, 0, ⟨v, w⟩⟩ where
  inside := hf
  bb := rfl
  idx := rfl
  world := rfl
  same l hl := by
    obtain ⟨hpos, hle⟩ := assigned_entry hl
    obtain ⟨j, rfl⟩ : ∃ j, l = j + 1 := ⟨l - 1, (Nat.sub_add_cancel hpos).symm⟩
    exact h j hle
  before block args _ hcall := by
    obtain ⟨pre, dst, op, s, s', span, rfl, -⟩ := tailCallArgs_some hcall
    simp

theorem selfCall?_rewritten (hg : Rewritten f g) (stmt : Statement) : selfCall? g stmt = selfCall? f stmt := by
  unfold selfCall?
  rw [hg.name, hg.argCount, hg.isAsync]

theorem passed_rewritten (hg : Rewritten f g) : passed rt g = passed rt f := by
  funext args vals
  unfold passed isSignedOperand
  rw [hg.types]

/-- The rewritten function starts with a jump to its header. -/
theorem run_start (hg : Rewritten f g) (vals : List ClValue) (w : W) :
    Activation.run rt g (n + 1) (start g vals w) =
      Activation.run rt g n ⟨f.basicBlocks.length, 0, ⟨startLocals f vals, w⟩⟩ := by
  obtain ⟨span, hentry⟩ := hg.entry
  have hlocals : startLocals g vals = startLocals f vals := by
    funext l
    cases l with
    | zero => rw [startLocals, hg.types, startLocals]
    | succ j => rw [startLocals, hg.types, startLocals]
  rw [run_goes (p := start g vals w) hentry rfl rfl, start, hlocals]

/-- A jump to the entry goes on to the header. -/
theorem run_home (hg : Rewritten f g) {t : ActState W} (h : Activation.run rt g n ⟨home f bb, 0, t⟩ = some o) :
    ∃ m, Activation.run rt g m ⟨bb, 0, t⟩ = some o := by
  by_cases hbb : bb = 0
  · subst hbb
    obtain ⟨span, hentry⟩ := hg.entry
    refine ⟨n + 1, ?_⟩
    rw [run_goes (p := ⟨0, 0, t⟩) hentry rfl rfl]
    exact h
  · rw [home, if_neg hbb] at h
    exact ⟨n, h⟩

theorem selfCall?_some {stmt : Statement} {dst : Local} {rval : Rvalue} {args : List Operand}
    (h : selfCall? f stmt = some (dst, rval, args)) :
    stmt.kind = .assign dst rval ∧ rval = .call (.const (.function f.name)) args := by
  unfold selfCall? at h
  split at h
  next d name ops hk =>
    split at h
    next hc =>
      cases h
      exact ⟨hk, by rw [hc.1]⟩
    next => cases h
  next => cases h

theorem linked_next (hl : Linked f p p') {stmt : Statement} (hb : f.basicBlocks[p.bb]? = some block)
    (hs : block.statements[p.idx]? = some stmt) {s t : ActState W}
    (hsame : AgreeOn f.locals (fun l => Assigned f p.bb p.idx l ∨ stmt.dst? = some l) s.locals t.locals)
    (hworld : s.world = t.world)
    (hroom : ∀ args, tailCallArgs block f.name f.argCount = some args →
      p.idx + 3 ≤ block.statements.length) :
    Linked f ⟨p.bb, p.idx + 1, s⟩ ⟨p'.bb, p'.idx + 1, t⟩ where
  inside := hl.inside
  bb := hl.bb
  idx := congrArg (· + 1) hl.idx
  world := hworld
  same := hsame.mono fun l h => assigned_next (by rw [stmtsAt_of_block hb]; exact hs) h
  before block' args hb' hcall := by
    obtain rfl : block = block' := Option.some.inj (hb.symm.trans hb')
    have := hroom args hcall
    change p.idx + 1 + 2 ≤ block.statements.length
    omega

theorem readsAt_stmt {stmt : Statement} (hb : f.basicBlocks[bb]? = some block)
    (hs : block.statements[idx]? = some stmt) : f.readsAt bb idx = stmt.reads := by
  rw [MirFunction.readsAt, stmtsAt_of_block hb, hs]

variable (rt) in
/-- The values of a self call's arguments, and the variables after them. -/
theorem args_agree (hreads : ReadsAssigned f) (hl : Linked f p p') {stmt : Statement} {dst : Local}
    {rval : Rvalue} {args : List Operand} (hb : f.basicBlocks[p.bb]? = some block)
    (hs : block.statements[p.idx]? = some stmt) (hself : selfCall? f stmt = some (dst, rval, args)) :
    (∀ op ∈ args, ∀ l, op.local? = some l → l ∈ f.readsAt p.bb p.idx) ∧
    (evalOperands rt f.locals p.state.locals args).1 = (evalOperands rt f.locals p'.state.locals args).1 ∧
      AgreeOn f.locals (Assigned f p.bb p.idx) (evalOperands rt f.locals p.state.locals args).2
        (evalOperands rt f.locals p'.state.locals args).2 := by
  obtain ⟨hkind, hrval⟩ := selfCall?_some hself
  have hmem : ∀ op ∈ args, ∀ l, op.local? = some l → l ∈ f.readsAt p.bb p.idx := by
    intro op hop l hlocal
    rw [readsAt_stmt hb hs]
    refine mem_reads ?_ ?_ hlocal
    · rw [Statement.reads, hkind]
    · rw [hkind, hrval]
      exact List.mem_cons_of_mem _ hop
  exact ⟨hmem, evalOperands_agree rt args hl.same fun op hop l hlocal =>
    hreads p.bb p.idx l (hmem op hop l hlocal)⟩

/-- One step that is no tail call, where runs of less fuel are followed. -/
theorem follow_step (hg : Rewritten f g) (hwf : WellFormed f) (hreads : ReadsAssigned f)
    (ih : ∀ (p p' : ActPoint W) o, Linked f p p' → AllKept rt f p →
      Activation.run rt f n p = some o → ∃ m, Activation.run rt g m p' = some o)
    (hl : Linked f p p') (hkept : AllKept rt f p) {block' : BasicBlock} (hb : f.basicBlocks[p.bb]? = some block)
    (hb' : g.basicBlocks[p'.bb]? = some block')
    (hsame : block'.statements[p'.idx]? = block.statements[p.idx]?)
    (hterm : block.statements[p.idx]? = none → block'.terminator = block.terminator)
    (hroom : ∀ args, tailCallArgs block f.name f.argCount = some args →
      p.idx + 3 ≤ block.statements.length)
    (h : Activation.run rt f (n + 1) p = some o) : ∃ m, Activation.run rt g m p' = some o := by
  rcases run_cases h with ⟨hnone, -⟩ | ⟨_, hb₁, hcases⟩
  · rw [hb] at hnone
    cases hnone
  obtain rfl := Option.some.inj (hb.symm.trans hb₁)
  rcases hcases with ⟨stmt, dst, rval, args, hs, hself⟩ | ⟨stmt, hs, hself⟩ | hs
  · -- a call that stays
    obtain ⟨-, hvals, hrest⟩ := args_agree rt hreads hl hb hs hself
    have hself' : selfCall? g stmt = some (dst, rval, args) := by rw [selfCall?_rewritten hg, hself]
    have hs' : block'.statements[p'.idx]? = some stmt := hsame.trans hs
    have hcalled : ∀ r, Activation.run rt f n (start f (passed rt f args
        (evalOperands rt f.locals p.state.locals args).1) p.state.world) = some r →
        ∃ m, Activation.run rt g m (start g (passed rt g args
          (evalOperands rt g.locals p'.state.locals args).1) p'.state.world) = some r := by
      intro r hr
      obtain ⟨m, hm⟩ := ih _ _ r (linked_start hg.nonempty fun _ _ => rfl)
        (hkept.next (.call hb hs hself)) hr
      refine ⟨m + 1, ?_⟩
      rw [run_start hg, passed_rewritten hg, evalOperands_types hg.types, ← hvals, ← hl.world]
      exact hm
    rcases run_self_some hb hs hself h with ⟨v, w, hcall, hafter⟩ | ⟨e, hcall, rfl⟩
    · obtain ⟨m₁, hm₁⟩ := hcalled _ hcall
      have hnext : Linked f ⟨p.bb, p.idx + 1, assign rt f.locals rval dst
            (evalOperands rt f.locals p.state.locals args).2 v w⟩
          ⟨p'.bb, p'.idx + 1, assign rt f.locals rval dst
            (evalOperands rt f.locals p'.state.locals args).2 v w⟩ := by
        refine linked_next hl hb hs ?_ rfl hroom
        refine (assign_agree hrest rval dst v w).mono fun l hd => hd.imp_right fun hdst => ?_
        rw [Statement.dst?, (selfCall?_some hself).1] at hdst
        exact Option.some.inj hdst
      obtain ⟨m₂, hm₂⟩ := ih _ _ o hnext (hkept.next (.back hb hs hself ⟨n, hcall⟩)) hafter
      refine ⟨max m₁ m₂ + 1, ?_⟩
      rw [run_self hb' hs' hself', run_mono hm₁ (Nat.le_max_left _ _), assign_types hg.types,
        evalOperands_types hg.types]
      exact run_mono hm₂ (Nat.le_max_right _ _)
    · obtain ⟨m₁, hm₁⟩ := hcalled _ hcall
      exact ⟨m₁ + 1, by rw [run_self hb' hs' hself', hm₁]⟩
  · have hself' : selfCall? g stmt = none := by rw [selfCall?_rewritten hg, hself]
    have hs' : block'.statements[p'.idx]? = some stmt := hsame.trans hs
    have hread : ∀ l ∈ stmt.reads, l ∈ f.readsAt p.bb p.idx := by
      intro l hmem
      rw [readsAt_stmt hb hs]
      exact hmem
    have hagree := execStmt_agree rt hl.same hl.world (fun l hmem => hreads p.bb p.idx l (hread l hmem))
    rcases hagree.cases with ⟨s, t, hex, hex', hagree, hworld⟩ | ⟨e, hex, hex'⟩
    · rw [run_stmt hb hs hself hex] at h
      obtain ⟨m, hm⟩ := ih _ _ o (linked_next hl hb hs hagree hworld hroom)
        (hkept.next (.stmt hb hs hself hex)) h
      refine ⟨m + 1, ?_⟩
      rw [run_stmt hb' hs' hself' (by rw [execStmt_types hg.types]; exact hex')]
      exact hm
    · rw [run_error hb hs hself hex] at h
      refine ⟨1, ?_⟩
      rw [run_error hb' hs' hself' (by rw [execStmt_types hg.types]; exact hex')]
      exact h
  · have hs' : block'.statements[p'.idx]? = none := hsame.trans hs
    have hstmts : (f.stmtsAt p.bb)[p.idx]? = none := by rw [stmtsAt_of_block hb]; exact hs
    have hat : f.terminatorAt p.bb = block.terminator := by
      rw [MirFunction.terminatorAt, hb]
      rfl
    have hread : ∀ tm, block.terminator = some tm → ∀ l ∈ tm.kind.reads, Assigned f p.bb p.idx l := by
      intro tm htm l hmem
      refine hreads p.bb p.idx l ?_
      rw [MirFunction.readsAt, hstmts, hat, htm]
      exact hmem
    rcases execTerm_agree rt hl.same hl.world hread with
      ⟨tm, bb, s, t, htm, hsucc, hex, hex', hagree, hworld⟩ | ⟨r, hex, hex'⟩
    · rw [run_goes hb hs hex] at h
      have hedge : bb ∈ f.successors p.bb := by
        rw [MirFunction.successors, hat, htm]
        exact hsucc
      have hnext : Linked f ⟨bb, 0, s⟩ ⟨home f bb, 0, t⟩ := {
        inside := hwf.targets p.bb bb hedge
        bb := rfl
        idx := rfl
        world := hworld
        same := hagree.mono fun l h => assigned_edge hstmts hedge h
        before := fun block₁ args _ hcall => by
          obtain ⟨pre, dst, op, s, s', span, rfl, -⟩ := tailCallArgs_some hcall
          simp }
      obtain ⟨m, hm⟩ := ih _ _ o hnext (hkept.next (.term hb hs hex)) h
      obtain ⟨m', hm'⟩ := run_home hg hm
      refine ⟨m' + 1, ?_⟩
      rw [run_goes hb' hs' (by rw [execTerm_types hg.types, hterm hs]; exact hex')]
      exact hm'
    · rw [run_ends hb hs hex] at h
      refine ⟨1, ?_⟩
      rw [run_ends hb' hs' (by rw [execTerm_types hg.types, hterm hs]; exact hex')]
      exact h

theorem readLocal_start {args : List Operand} {vals : List ClValue} {j : Nat} {arg : Operand}
    {val : ClValue} (harg : args[j]? = some arg) (hval : vals[j]? = some val) :
    readLocal f.locals (startLocals f (passed rt f args vals)) (j + 1) =
      (clType (tyOf f.locals (j + 1))).read
        (pass rt (isSignedOperand f.locals arg) (clType (tyOf f.locals (j + 1))) val) := by
  have hpassed : (passed rt f args vals)[j]? = some
      (pass rt (isSignedOperand f.locals arg) (clType (tyOf f.locals (j + 1))) val) := by
    have hzip : (args.zip vals)[j]? = some (arg, val) := List.getElem?_zip_eq_some.mpr ⟨harg, hval⟩
    rw [passed, List.getElem?_mapIdx, hzip]
    rfl
  rw [readLocal, startLocals, List.getD_eq_getElem?_getD, hpassed, Option.getD_some]

/-- After a tail call an activation returns the value of the call. -/
theorem run_rest {dst : Local} {op : Operand} {call : Rvalue} {u : Locals} {v : ClValue} {w : W}
    {span span' : Span} (hb : f.basicBlocks[bb]? = some block)
    (hterm : block.terminator = some ⟨.ret, span⟩)
    (hs : block.statements[idx + 1]? = some ⟨.assign 0 (.use op), span'⟩)
    (hend : block.statements[idx + 1 + 1]? = none) (hop : op.local? = some dst)
    (hv : returned rt f call dst op w v = v)
    (h : Activation.run rt f n ⟨bb, idx + 1, assign rt f.locals call dst u v w⟩ = some o) :
    o = .ok (v, w) := by
  have hread : (evalOperand rt f.locals (assign rt f.locals call dst u v w).locals op).1 =
      (clType (tyOf f.locals dst)).read (convert rt (source f.locals call) (tyOf f.locals dst) w v) := by
    have hdst : readLocal f.locals (assign rt f.locals call dst u v w).locals dst =
        (clType (tyOf f.locals dst)).read (convert rt (source f.locals call) (tyOf f.locals dst) w v) := by
      rw [assign, readLocal_setLocal, if_pos rfl]
    cases op with
    | copy l =>
      obtain rfl : l = dst := Option.some.inj hop
      exact hdst
    | move l =>
      obtain rfl : l = dst := Option.some.inj hop
      exact hdst
    | const c => cases hop
  cases n with
  | zero => cases h
  | succ n =>
    rw [run_stmt hb hs rfl execStmt_use] at h
    cases n with
    | zero => cases h
    | succ n =>
      rw [run_ends hb hend (by rw [hterm]; rfl)] at h
      rw [← Option.some.inj h, readLocal_setLocal, if_pos rfl, hread]
      exact congrArg Except.ok (congrArg (·, w) hv)

/-- The tail call itself. -/
theorem follow_jump (hg : Rewritten f g) (hwf : WellFormed f) (hreads : ReadsAssigned f)
    (ih : ∀ (p p' : ActPoint W) o, Linked f p p' → AllKept rt f p →
      Activation.run rt f n p = some o → ∃ m, Activation.run rt g m p' = some o)
    (hl : Linked f p p') (hkept : AllKept rt f p) {block' : BasicBlock} {args : List Operand}
    (hb : f.basicBlocks[p.bb]? = some block) (hb' : g.basicBlocks[p'.bb]? = some block')
    (hturned : Turned f block block') (hcall : tailCallArgs block f.name f.argCount = some args)
    (hat : p.idx + 2 = block.statements.length)
    (h : Activation.run rt f (n + 1) p = some o) : ∃ m, Activation.run rt g m p' = some o := by
  rw [Turned, hcall] at hturned
  obtain ⟨base, hbase, rfl⟩ := hturned
  obtain ⟨pre, dst, op, s, s', span, rfl, hop, hlen⟩ := tailCallArgs_some hcall
  have hidx : p.idx = pre.length := by simpa using hat
  have hk := hkept p dst op args .refl ⟨pre, s, s', span, hb, hidx, hop, hlen⟩
  have hs : (pre ++ [⟨.assign dst (.call (.const (.function f.name)) args), s⟩,
      ⟨.assign 0 (.use op), s'⟩] : List Statement)[p.idx]? =
      some ⟨.assign dst (.call (.const (.function f.name)) args), s⟩ := by simp [hidx]
  have hself : selfCall? f ⟨.assign dst (.call (.const (.function f.name)) args), s⟩ =
      some (dst, .call (.const (.function f.name)) args, args) := if_pos ⟨rfl, hlen, hk.sync⟩
  obtain ⟨hargs, hvals, -⟩ := args_agree rt hreads hl hb hs hself
  obtain ⟨u₁, k, hjump, hset⟩ := run_jump (w := p'.state.world) hg hwf.params hb' hbase hlen
    (fun l hmem => hwf.reads p.bb p.idx l hmem) hargs
    (hl.same.mono fun l hmem => hreads p.bb p.idx l hmem)
  -- the header starts with the values that the called function would have got
  have hlinked : Linked f (start f (passed rt f args (evalOperands rt f.locals p.state.locals args).1)
      p.state.world) ⟨f.basicBlocks.length, 0, ⟨u₁, p'.state.world⟩⟩ := by
    rw [← hl.world]
    refine linked_start hg.nonempty fun j hj => ?_
    rw [← hlen] at hj
    have harg : args[j]? = some args[j] := List.getElem?_eq_getElem hj
    have hlt : j < (evalOperands rt f.locals p.state.locals args).1.length := by
      rw [evalOperands_length]
      exact hj
    have hval := List.getElem?_eq_getElem hlt
    rw [readLocal_start harg hval, ← hk.passed j _ _ harg hval, hl.world, ← hset j _ _ harg hval]
  have hfollow : ∀ r, Activation.run rt f n (start f (passed rt f args
      (evalOperands rt f.locals p.state.locals args).1) p.state.world) = some r →
      ∃ m, Activation.run rt g m p' = some r := by
    intro r hr
    obtain ⟨m, hm⟩ := ih _ _ r hlinked (hkept.next (.call hb hs hself)) hr
    refine ⟨m + k, ?_⟩
    rw [show p' = ⟨p'.bb, pre.length, ⟨p'.state.locals, p'.state.world⟩⟩ by rw [← hidx, ← hl.idx], hjump]
    exact hm
  rcases run_self_some hb hs hself h with ⟨v, w, hcalled, hafter⟩ | ⟨e, hcalled, rfl⟩
  · have hv : v.type = clType (tyOf f.locals 0) := run_type hcalled
    -- what is left of the activation returns the value of the call
    have ho : o = .ok (v, w) := by
      have hlast : (pre ++ [⟨.assign dst (.call (.const (.function f.name)) args), s⟩,
          ⟨.assign 0 (.use op), s'⟩] : List Statement)[p.idx + 1]? = some ⟨.assign 0 (.use op), s'⟩ := by
        simp [hidx]
      exact run_rest hb rfl hlast (by simp [hidx]) hop (hk.result w v hv) hafter
    rw [ho]
    exact hfollow _ hcalled
  · exact hfollow _ hcalled

theorem follow_run (hg : Rewritten f g) (hwf : WellFormed f) (hreads : ReadsAssigned f) (n : Nat)
    (p p' : ActPoint W) (o : ActOutcome W) (hl : Linked f p p') (hkept : AllKept rt f p) (h : Activation.run rt f n p = some o) : ∃ m, Activation.run rt g m p' = some o := by
  induction n generalizing p p' o with
  | zero => cases h
  | succ n ih =>
    obtain ⟨block, hb⟩ : ∃ block, f.basicBlocks[p.bb]? = some block :=
      ⟨_, List.getElem?_eq_getElem hl.inside⟩
    obtain ⟨block', hb', hturned⟩ := hg.blocks p.bb block hb
    rw [← hl.bb] at hb'
    cases hcall : tailCallArgs block f.name f.argCount with
    | none =>
      rw [Turned, hcall] at hturned
      obtain rfl : block' = block := hturned
      exact follow_step hg hwf hreads ih hl hkept hb hb' (by rw [hl.idx]) (fun _ => rfl)
        (by intro args hargs; cases hcall.symm.trans hargs) h
    | some args =>
      have hbefore := hl.before block args hb hcall
      rcases Nat.lt_or_eq_of_le hbefore with hroom | hat
      · rw [Turned, hcall] at hturned
        obtain ⟨base, -, rfl⟩ := hturned
        obtain ⟨pre, dst, op, s, s', span, rfl, -⟩ := tailCallArgs_some hcall
        have hidx : p.idx < pre.length := by
          simp only [List.length_append, List.length_cons, List.length_nil] at hroom
          omega
        have hstmt : (pre ++ [⟨.assign dst (.call (.const (.function f.name)) args), s⟩,
            ⟨.assign 0 (.use op), s'⟩] : List Statement)[p.idx]? = some pre[p.idx] := by
          rw [List.getElem?_append_left hidx, List.getElem?_eq_getElem hidx]
        refine follow_step hg hwf hreads ih hl hkept hb hb' ?_ ?_ (fun _ _ => hroom) h
        · rw [jumpBlock_eq, hl.idx, List.getElem?_append_left hidx, List.getElem?_append_left hidx]
        · intro hnone
          cases hstmt.symm.trans hnone
      · exact follow_jump hg hwf hreads ih hl hkept hb hb' hturned hcall hat h

end Simulation

end TailCall

end Olive
