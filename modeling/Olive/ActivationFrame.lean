import Olive.Activations
import Olive.AssignedPaths

/-! That a step of an activation depends on nothing but the variables that it reads, and runs with
more fuel. -/

namespace Olive

namespace Activation

variable {W : Type} {rt : ActivationRuntime W} {decls : List LocalDecl} {A : Local → Prop}

theorem readLocal_setLocal (u : Locals) (l x : Local) (v : ClValue) :
    readLocal decls (setLocal u l v) x =
      if x = l then (clType (tyOf decls l)).read v else readLocal decls u x := by
  unfold readLocal setLocal
  split
  next h => rw [h]
  next => rfl

theorem readLocal_setLocal_of_ne {u : Locals} {l x : Local} (v : ClValue) (h : x ≠ l) :
    readLocal decls (setLocal u l v) x = readLocal decls u x := by
  rw [readLocal_setLocal, if_neg h]

/-- The same values in the variables of `A`. -/
def AgreeOn (decls : List LocalDecl) (A : Local → Prop) (u v : Locals) : Prop :=
  ∀ l, A l → readLocal decls u l = readLocal decls v l

theorem AgreeOn.mono {A' : Local → Prop} {u v : Locals} (h : AgreeOn decls A u v)
    (hle : ∀ l, A' l → A l) : AgreeOn decls A' u v := fun l hl => h l (hle l hl)

theorem AgreeOn.set {u v : Locals} (h : AgreeOn decls A u v) (l : Local) (x : ClValue) :
    AgreeOn decls (fun y => A y ∨ l = y) (setLocal u l x) (setLocal v l x) := by
  intro y hy
  rw [readLocal_setLocal, readLocal_setLocal]
  split
  next => rfl
  next hne => exact h y (hy.resolve_right fun he => hne he.symm)

variable (rt) in
theorem evalOperand_agree {u v : Locals} (h : AgreeOn decls A u v) {op : Operand}
    (hop : ∀ l, op.local? = some l → A l) :
    (evalOperand rt decls u op).1 = (evalOperand rt decls v op).1 ∧
      AgreeOn decls A (evalOperand rt decls u op).2 (evalOperand rt decls v op).2 := by
  cases op with
  | copy l => exact ⟨h l (hop l rfl), h⟩
  | move l => exact ⟨h l (hop l rfl), (h.set l _).mono fun _ hx => .inl hx⟩
  | const c => exact ⟨rfl, h⟩

variable (rt) in
theorem evalOperands_agree (ops : List Operand) {u v : Locals} (h : AgreeOn decls A u v)
    (hops : ∀ op ∈ ops, ∀ l, op.local? = some l → A l) :
    (evalOperands rt decls u ops).1 = (evalOperands rt decls v ops).1 ∧
      AgreeOn decls A (evalOperands rt decls u ops).2 (evalOperands rt decls v ops).2 := by
  induction ops generalizing u v with
  | nil => exact ⟨rfl, h⟩
  | cons op ops ih =>
    obtain ⟨hval, hagree⟩ := evalOperand_agree rt h (hops op List.mem_cons_self)
    obtain ⟨hvals, hrest⟩ := ih hagree fun op' hop => hops op' (List.mem_cons_of_mem _ hop)
    refine ⟨?_, hrest⟩
    simp only [evalOperands, hval, hvals]

/-- Two results with the same world, and the same values in the variables of `A`. -/
def SameNext (decls : List LocalDecl) (A : Local → Prop) :
    Except Fault (ActState W) → Except Fault (ActState W) → Prop
  | .ok s, .ok t => AgreeOn decls A s.locals t.locals ∧ s.world = t.world
  | .error e, .error e' => e = e'
  | _, _ => False

theorem SameNext.cases {a b : Except Fault (ActState W)} (h : SameNext decls A a b) :
    (∃ s t, a = .ok s ∧ b = .ok t ∧ AgreeOn decls A s.locals t.locals ∧ s.world = t.world) ∨
      ∃ e, a = .error e ∧ b = .error e := by
  cases a with
  | error e =>
    cases b with
    | error e' => exact .inr ⟨e, rfl, congrArg Except.error (Eq.symm h)⟩
    | ok t => exact h.elim
  | ok s =>
    cases b with
    | error e' => exact h.elim
    | ok t => exact .inl ⟨s, t, rfl, rfl, h.1, h.2⟩

theorem assign_agree {u v : Locals} (h : AgreeOn decls A u v) (rval : Rvalue) (dst : Local)
    (x : ClValue) (w : W) :
    AgreeOn decls (fun l => A l ∨ dst = l) (assign rt decls rval dst u x w).locals
      (assign rt decls rval dst v x w).locals :=
  h.set dst _

theorem mem_reads {stmt : Statement} {op : Operand} {l : Local}
    (hkind : stmt.reads = stmt.kind.evaluated.filterMap Operand.local?)
    (hop : op ∈ stmt.kind.evaluated) (hl : op.local? = some l) : l ∈ stmt.reads := by
  rw [hkind]
  exact List.mem_filterMap.mpr ⟨op, hop, hl⟩

theorem SameNext.mono {A' : Local → Prop} {a b : Except Fault (ActState W)} (h : SameNext decls A a b)
    (hle : ∀ l, A' l → A l) : SameNext decls A' a b := by
  rcases h.cases with ⟨s, t, rfl, rfl, hagree, hworld⟩ | ⟨e, rfl, rfl⟩
  · exact ⟨hagree.mono hle, hworld⟩
  · exact rfl

theorem store_agree (kind : StatementKind) {u v : Locals} {w : W} (h : AgreeOn decls A u v)
    (hreads : ∀ op ∈ kind.stored, ∀ l, op.local? = some l → A l) :
    SameNext decls A
      ((rt.store kind (evalOperands rt decls u kind.stored).1 w).map fun w =>
        ⟨(evalOperands rt decls u kind.stored).2, w⟩)
      ((rt.store kind (evalOperands rt decls v kind.stored).1 w).map fun w =>
        ⟨(evalOperands rt decls v kind.stored).2, w⟩) := by
  obtain ⟨hvals, hrest⟩ := evalOperands_agree rt kind.stored h hreads
  rw [hvals]
  cases rt.store kind (evalOperands rt decls v kind.stored).1 w with
  | error e => exact rfl
  | ok w₁ => exact ⟨hrest, rfl⟩

variable (rt) in
/-- A statement does the same where what it reads is the same. -/
theorem execStmt_agree {s t : ActState W} {stmt : Statement} (h : AgreeOn decls A s.locals t.locals)
    (hworld : s.world = t.world) (hreads : ∀ l ∈ stmt.reads, A l) :
    SameNext decls (fun l => A l ∨ stmt.dst? = some l) (execStmt rt decls s stmt)
      (execStmt rt decls t stmt) := by
  obtain ⟨u, w⟩ := s
  obtain ⟨v, w'⟩ := t
  obtain rfl : w = w' := hworld
  obtain ⟨kind, span⟩ := stmt
  have hle : ∀ l, A l ∨ (⟨kind, span⟩ : Statement).dst? = some l →
      (∀ dst rval, kind ≠ .assign dst rval) → A l := by
    rintro l (hl | hl) hno
    · exact hl
    · obtain ⟨rval, hk⟩ := Statement.dst?_eq_some.mp hl
      exact absurd hk (hno l rval)
  cases kind with
  | assign dst rval =>
    obtain ⟨hvals, hrest⟩ := evalOperands_agree rt rval.inputs h
      fun op hop l hl => hreads l (mem_reads rfl hop hl)
    simp only [execStmt, hvals]
    cases evalRvalue rt rval (evalOperands rt decls v rval.inputs).1 w with
    | error e => exact rfl
    | ok r =>
      refine ⟨(assign_agree hrest rval dst r.1 r.2).mono fun l hl => hl.imp_right fun hd => ?_, rfl⟩
      exact Option.some.inj hd
  | storageLive l => exact ⟨h.mono fun x hx => hle x hx (fun _ _ => nofun), rfl⟩
  | storageDead l => exact ⟨h.mono fun x hx => hle x hx (fun _ _ => nofun), rfl⟩
  | drop l =>
    have hl := h l (hreads l List.mem_cons_self)
    simp only [execStmt]
    split
    next =>
      refine ⟨?_, ?_⟩
      · exact (h.set l _).mono fun x hx => .inl (hle x hx fun _ _ => nofun)
      · simp only [hl]
    next => exact ⟨h.mono fun x hx => hle x hx (fun _ _ => nofun), rfl⟩
  | genCheck value generation =>
    have hv := h value (hreads value List.mem_cons_self)
    have hgen := h generation (hreads generation (List.mem_cons_of_mem _ List.mem_cons_self))
    simp only [execStmt, hv, hgen]
    split
    next => exact rfl
    next => exact ⟨h.mono fun x hx => hle x hx (fun _ _ => nofun), rfl⟩
  | setAttr obj attr val =>
    exact (store_agree _ h fun op hop l hl => hreads l (mem_reads rfl hop hl)).mono
      fun x hx => hle x hx fun _ _ => nofun
  | setIndex obj idx val unchecked =>
    exact (store_agree _ h fun op hop l hl => hreads l (mem_reads rfl hop hl)).mono
      fun x hx => hle x hx fun _ _ => nofun
  | vectorStore obj idx val =>
    exact (store_agree _ h fun op hop l hl => hreads l (mem_reads rfl hop hl)).mono
      fun x hx => hle x hx fun _ _ => nofun
  | ptrStore ptr val =>
    exact (store_agree _ h fun op hop l hl => hreads l (mem_reads rfl hop hl)).mono
      fun x hx => hle x hx fun _ _ => nofun

section Types

variable {decls' : List LocalDecl} (h : tyOf decls' = tyOf decls)

include h

theorem readLocal_types : readLocal decls' = readLocal decls := by
  funext u l
  rw [readLocal, h, readLocal]

theorem evalOperand_types : evalOperand rt decls' = evalOperand rt decls := by
  funext u op
  cases op with
  | copy l => rw [evalOperand, readLocal_types h, evalOperand]
  | move l => rw [evalOperand, readLocal_types h, evalOperand, moveOut, moveOut, h]
  | const c => rfl

theorem evalOperands_types : evalOperands rt decls' = evalOperands rt decls := by
  funext u ops
  induction ops generalizing u with
  | nil => rfl
  | cons op ops ih => rw [evalOperands, evalOperand_types h, ih, evalOperands]

theorem source_types : source decls' = source decls := by
  funext rval
  unfold source
  rw [h]

theorem assign_types : assign rt decls' = assign rt decls := by
  funext rval dst u v w
  rw [assign, assign, source_types h, h]

theorem execStmt_types : execStmt rt decls' = execStmt rt decls := by
  funext s stmt
  unfold execStmt moveOut
  rw [evalOperands_types h, assign_types h, readLocal_types h, h]

theorem isPyObject_types (op : Operand) : op.isPyObject decls' = op.isPyObject decls := by
  unfold Operand.isPyObject Operand.ty
  rw [h]

theorem execTerm_types : execTerm rt decls' = execTerm rt decls := by
  funext s term
  unfold execTerm
  simp only [evalOperand_types h, isPyObject_types h, readLocal_types h, h]

end Types

theorem switchTarget_mem {isPyObject : Bool} {targets : List (Word × BasicBlockId)}
    {otherwise : BasicBlockId} {v : ClValue} {w : W} :
    switchTarget rt isPyObject targets otherwise v w ∈ targets.map (·.2) ++ [otherwise] := by
  have hmem : ∀ o : Option BasicBlockId, (∀ bb, o = some bb → bb ∈ targets.map (·.2)) →
      o.getD otherwise ∈ targets.map (·.2) ++ [otherwise] := by
    intro o ho
    cases o with
    | none => exact List.mem_append_right _ List.mem_cons_self
    | some bb => exact List.mem_append_left _ (ho bb rfl)
  unfold switchTarget
  split
  next value target =>
    by_cases hc : if value = 0 then rt.pyToInt v w = 0 else rt.pyToInt v w ≠ value
    · rw [if_pos hc]
      exact List.mem_append_left _ List.mem_cons_self
    · rw [if_neg hc]
      exact List.mem_append_right _ List.mem_cons_self
  next =>
    refine hmem _ fun bb hbb => ?_
    obtain ⟨l, r, hsplit, -⟩ := List.lookup_eq_some_iff.mp hbb
    rw [hsplit]
    simp
  next =>
    split
    next n x =>
      refine hmem _ fun bb hbb => ?_
      obtain ⟨t, ht, rfl⟩ := Option.map_eq_some_iff.mp hbb
      exact List.mem_map_of_mem (List.mem_of_find?_eq_some ht)
    next => exact List.mem_append_right _ List.mem_cons_self

variable (rt) in
/-- A terminator does the same where what it reads is the same. -/
theorem execTerm_agree {s t : ActState W} {term : Option Terminator}
    (h : AgreeOn decls A s.locals t.locals) (hworld : s.world = t.world)
    (hreads : ∀ tm, term = some tm → ∀ l ∈ tm.kind.reads, A l) :
    (∃ tm bb s' t', term = some tm ∧ bb ∈ tm.kind.successors ∧
      execTerm rt decls s term = .inl (bb, s') ∧ execTerm rt decls t term = .inl (bb, t') ∧
      AgreeOn decls A s'.locals t'.locals ∧ s'.world = t'.world) ∨
      ∃ o, execTerm rt decls s term = .inr o ∧ execTerm rt decls t term = .inr o := by
  obtain ⟨u, w⟩ := s
  obtain ⟨v, w'⟩ := t
  obtain rfl : w = w' := hworld
  cases term with
  | none => exact .inr ⟨_, rfl, rfl⟩
  | some tm =>
    obtain ⟨kind, span⟩ := tm
    have hreads' := hreads _ rfl
    cases kind with
    | goto target => exact .inl ⟨_, target, _, _, rfl, List.mem_cons_self, rfl, rfl, h, rfl⟩
    | unreachable => exact .inr ⟨_, rfl, rfl⟩
    | ret =>
      refine .inr ⟨_, rfl, ?_⟩
      simp only [execTerm]
      rw [h 0 (hreads' 0 List.mem_cons_self)]
    | switchInt discr targets otherwise =>
      have hdiscr : ∀ l, discr.local? = some l → A l := fun l hl =>
        hreads' l (by simp [TerminatorKind.reads, hl])
      obtain ⟨hval, hrest⟩ := evalOperand_agree rt h hdiscr
      refine .inl ⟨_, _, _, ⟨(evalOperand rt decls v discr).2, w⟩, rfl, switchTarget_mem, rfl, ?_,
        hrest, rfl⟩
      simp only [execTerm, hval]

section Runs

variable {f : MirFunction} {p : ActPoint W} {block : BasicBlock} {n m : Nat}

theorem run_self {stmt : Statement} {dst : Local} {rval : Rvalue} {args : List Operand}
    (hb : f.basicBlocks[p.bb]? = some block) (hs : block.statements[p.idx]? = some stmt)
    (hself : selfCall? f stmt = some (dst, rval, args)) :
    run rt f (n + 1) p =
      match run rt f n (start f (passed rt f args (evalOperands rt f.locals p.state.locals args).1)
        p.state.world) with
      | some (.ok (v, w)) => run rt f n ⟨p.bb, p.idx + 1,
          assign rt f.locals rval dst (evalOperands rt f.locals p.state.locals args).2 v w⟩
      | r => r := by
  cases hcall : run rt f n (start f (passed rt f args (evalOperands rt f.locals p.state.locals args).1)
      p.state.world) with
  | none => simp only [run, hb, hs, hself, hcall]
  | some r =>
    cases r with
    | error e => simp only [run, hb, hs, hself, hcall]
    | ok r => simp only [run, hb, hs, hself, hcall]

theorem run_stmt {stmt : Statement} {s : ActState W} (hb : f.basicBlocks[p.bb]? = some block)
    (hs : block.statements[p.idx]? = some stmt) (hself : selfCall? f stmt = none)
    (hex : execStmt rt f.locals p.state stmt = .ok s) :
    run rt f (n + 1) p = run rt f n ⟨p.bb, p.idx + 1, s⟩ := by
  simp only [run, hb, hs, hself, hex]

theorem run_error {stmt : Statement} {e : Fault} (hb : f.basicBlocks[p.bb]? = some block)
    (hs : block.statements[p.idx]? = some stmt) (hself : selfCall? f stmt = none)
    (hex : execStmt rt f.locals p.state stmt = .error e) : run rt f (n + 1) p = some (.error e) := by
  simp only [run, hb, hs, hself, hex]

theorem run_goes {bb : BasicBlockId} {s : ActState W} (hb : f.basicBlocks[p.bb]? = some block)
    (hs : block.statements[p.idx]? = none)
    (hex : execTerm rt f.locals p.state block.terminator = .inl (bb, s)) :
    run rt f (n + 1) p = run rt f n ⟨bb, 0, s⟩ := by
  simp only [run, hb, hs, hex]

theorem run_ends {o : ActOutcome W} (hb : f.basicBlocks[p.bb]? = some block)
    (hs : block.statements[p.idx]? = none)
    (hex : execTerm rt f.locals p.state block.terminator = .inr o) :
    run rt f (n + 1) p = some o := by
  simp only [run, hb, hs, hex]

/-- What the next step of a run is. -/
theorem run_cases {o : ActOutcome W} (h : run rt f (n + 1) p = some o) :
    (f.basicBlocks[p.bb]? = none ∧ o = .error .trap) ∨
    ∃ block, f.basicBlocks[p.bb]? = some block ∧
      ((∃ stmt dst rval args, block.statements[p.idx]? = some stmt ∧
          selfCall? f stmt = some (dst, rval, args)) ∨
        (∃ stmt, block.statements[p.idx]? = some stmt ∧ selfCall? f stmt = none) ∨
        block.statements[p.idx]? = none) := by
  cases hb : f.basicBlocks[p.bb]? with
  | none =>
    rw [run_no_block hb] at h
    exact .inl ⟨rfl, (Option.some.inj h).symm⟩
  | some block =>
    refine .inr ⟨block, rfl, ?_⟩
    cases hs : block.statements[p.idx]? with
    | none => exact .inr (.inr rfl)
    | some stmt =>
      cases hself : selfCall? f stmt with
      | none => exact .inr (.inl ⟨stmt, rfl, hself⟩)
      | some c => exact .inl ⟨stmt, c.1, c.2.1, c.2.2, rfl, hself⟩

/-- A call that ends gives its value to the rest of the run, or its fault. -/
theorem run_self_some {stmt : Statement} {dst : Local} {rval : Rvalue} {args : List Operand}
    {o : ActOutcome W} (hb : f.basicBlocks[p.bb]? = some block)
    (hs : block.statements[p.idx]? = some stmt)
    (hself : selfCall? f stmt = some (dst, rval, args)) (h : run rt f (n + 1) p = some o) :
    (∃ v w, run rt f n (start f (passed rt f args (evalOperands rt f.locals p.state.locals args).1)
          p.state.world) = some (.ok (v, w)) ∧
        run rt f n ⟨p.bb, p.idx + 1,
          assign rt f.locals rval dst (evalOperands rt f.locals p.state.locals args).2 v w⟩ = some o) ∨
      ∃ e, run rt f n (start f (passed rt f args (evalOperands rt f.locals p.state.locals args).1)
          p.state.world) = some (.error e) ∧ o = .error e := by
  rw [run_self hb hs hself] at h
  cases hcall : run rt f n (start f (passed rt f args (evalOperands rt f.locals p.state.locals args).1)
      p.state.world) with
  | none =>
    rw [hcall] at h
    cases h
  | some r =>
    rw [hcall] at h
    cases r with
    | error e => exact .inr ⟨e, rfl, (Option.some.inj h).symm⟩
    | ok r => exact .inl ⟨r.1, r.2, rfl, h⟩

/-- More fuel changes no run that ends. -/
theorem run_mono {o : ActOutcome W} (h : run rt f n p = some o) (hle : n ≤ m) :
    run rt f m p = some o := by
  induction n generalizing p o m with
  | zero => cases h
  | succ n ih =>
    obtain ⟨k, rfl⟩ := Nat.exists_eq_add_of_le hle
    have hk : n ≤ n + k := Nat.le_add_right n k
    rw [Nat.add_right_comm]
    rcases run_cases h with ⟨hb, rfl⟩ | ⟨block, hb, ⟨stmt, dst, rval, args, hs, hself⟩ | ⟨stmt, hs, hself⟩ | hs⟩
    · exact run_no_block hb
    · rcases run_self_some hb hs hself h with ⟨v, w, hcall, hrest⟩ | ⟨e, hcall, rfl⟩
      · rw [run_self hb hs hself, ih hcall hk]
        exact ih hrest hk
      · rw [run_self hb hs hself, ih hcall hk]
    · cases hex : execStmt rt f.locals p.state stmt with
      | error e =>
        rw [run_error hb hs hself hex] at h ⊢
        exact h
      | ok s =>
        rw [run_stmt hb hs hself hex] at h ⊢
        exact ih h hk
    · cases hex : execTerm rt f.locals p.state block.terminator with
      | inr r =>
        rw [run_ends hb hs hex] at h ⊢
        exact h
      | inl r =>
        rw [run_goes hb hs hex] at h ⊢
        exact ih h hk

theorem ends_unique {vals : List ClValue} {w : W} {o o' : ActOutcome W} (h : Ends rt f vals w o)
    (h' : Ends rt f vals w o') : o = o' := by
  obtain ⟨n, hn⟩ := h
  obtain ⟨m, hm⟩ := h'
  have hsame := (run_mono hn (Nat.le_max_left n m)).symm.trans (run_mono hm (Nat.le_max_right n m))
  exact Option.some.inj hsame

theorem execTerm_type {s : ActState W} {term : Option Terminator} {v : ClValue} {w : W}
    (h : execTerm rt decls s term = .inr (.ok (v, w))) : v.type = clType (tyOf decls 0) := by
  cases term with
  | none =>
    cases h
    exact ClType.zero_type _
  | some tm =>
    obtain ⟨kind, span⟩ := tm
    cases kind with
    | goto target => cases h
    | switchInt discr targets otherwise => cases h
    | unreachable => cases h
    | ret =>
      cases h
      exact ClType.read_type _ _

/-- A function returns a value of the type of its return variable. -/
theorem run_type {v : ClValue} {w : W} (h : run rt f n p = some (.ok (v, w))) :
    v.type = clType (tyOf f.locals 0) := by
  induction n generalizing p with
  | zero => cases h
  | succ n ih =>
    rcases run_cases h with ⟨_, ho⟩ | ⟨block, hb, ⟨stmt, dst, rval, args, hs, hself⟩ | ⟨stmt, hs, hself⟩ | hs⟩
    · cases ho
    · rcases run_self_some hb hs hself h with ⟨_, _, _, hrest⟩ | ⟨e, _, ho⟩
      · exact ih hrest
      · cases ho
    · cases hex : execStmt rt f.locals p.state stmt with
      | error e =>
        rw [run_error hb hs hself hex] at h
        cases h
      | ok s =>
        rw [run_stmt hb hs hself hex] at h
        exact ih h
    · cases hex : execTerm rt f.locals p.state block.terminator with
      | inr r =>
        rw [run_ends hb hs hex] at h
        cases h
        exact execTerm_type hex
      | inl r =>
        rw [run_goes hb hs hex] at h
        exact ih h

def execAll (rt : ActivationRuntime W) (decls : List LocalDecl) :
    List Statement → ActState W → Except Fault (ActState W)
  | [], s => .ok s
  | stmt :: rest, s => (execStmt rt decls s stmt).bind (execAll rt decls rest)

theorem execAll_types {decls' : List LocalDecl} (h : tyOf decls' = tyOf decls) (stmts : List Statement) :
    execAll rt decls' stmts = execAll rt decls stmts := by
  induction stmts with
  | nil => rfl
  | cons stmt rest ih =>
    funext s
    rw [execAll, execAll, ih, execStmt_types h]

theorem execAll_append {xs ys : List Statement} {s s' : ActState W}
    (h : execAll rt decls xs s = .ok s') : execAll rt decls (xs ++ ys) s = execAll rt decls ys s' := by
  induction xs generalizing s with
  | nil =>
    cases h
    rfl
  | cons x xs ih =>
    rw [execAll] at h
    rw [List.cons_append, execAll]
    cases hx : execStmt rt decls s x with
    | error e =>
      rw [hx] at h
      cases h
    | ok s₁ =>
      rw [hx] at h
      exact ih h

/-- Statements in a row, none of them a call of the function by itself. -/
theorem run_execAll {stmts : List Statement} {bb : BasicBlockId} {idx : Nat} {s s' : ActState W}
    (hb : f.basicBlocks[bb]? = some block)
    (hs : ∀ k stmt, stmts[k]? = some stmt → block.statements[idx + k]? = some stmt)
    (hself : ∀ stmt ∈ stmts, selfCall? f stmt = none)
    (hex : execAll rt f.locals stmts s = .ok s') :
    run rt f (n + stmts.length) ⟨bb, idx, s⟩ = run rt f n ⟨bb, idx + stmts.length, s'⟩ := by
  induction stmts generalizing idx s with
  | nil =>
    cases hex
    rfl
  | cons stmt rest ih =>
    rw [execAll] at hex
    cases hx : execStmt rt f.locals s stmt with
    | error e =>
      rw [hx] at hex
      cases hex
    | ok s₁ =>
      rw [hx] at hex
      have hrest : ∀ k st, rest[k]? = some st → block.statements[idx + 1 + k]? = some st := by
        intro k st hk
        rw [Nat.add_assoc, Nat.add_comm 1 k]
        exact hs (k + 1) st hk
      have hfirst : run rt f (n + rest.length + 1) ⟨bb, idx, s⟩ =
          run rt f (n + rest.length) ⟨bb, idx + 1, s₁⟩ :=
        run_stmt hb (hs 0 stmt rfl) (hself stmt List.mem_cons_self) hx
      rw [List.length_cons, ← Nat.add_assoc, hfirst,
        ih hrest (fun st hst => hself st (List.mem_cons_of_mem _ hst)) hex, Nat.add_assoc,
        Nat.add_comm 1, ← Nat.add_assoc]

end Runs

end Activation

end Olive
