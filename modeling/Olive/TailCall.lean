import Olive.Activations

/-! `TailCallOpt`. -/

namespace Olive

namespace TailCall

/-- The arguments of a self tail call at the end of `bb`. -/
def tailCallArgs (bb : BasicBlock) (funcName : String) (argCount : Nat) : Option (List Operand) :=
  match bb.terminator, bb.statements.reverse with
  | some ⟨.ret, _⟩, ⟨.assign 0 (.use op), _⟩ :: ⟨.assign dest (.call (.const (.function name)) args), _⟩ :: _ =>
    if op.local? = some dest ∧ name = funcName ∧ args.length = argCount then some args else none
  | _, _ => none

/-- The entry jumps to a new block with what it had. -/
def splitEntry (func : MirFunction) : Option (MirFunction × BasicBlockId) :=
  if func.basicBlocks.any fun bb => (tailCallArgs bb func.name func.argCount).isSome then
    match func.basicBlocks with
    | [] => none
    | entry :: rest =>
      let header := func.basicBlocks.length
      let span := (entry.terminator.map (·.span)).getD .default
      some ({ func with basicBlocks := ⟨[], some ⟨.goto header, span⟩⟩ :: rest ++ [entry] }, header)
  else none

def stageDecl : LocalDecl := ⟨.any, none, .default, true, true⟩

/-- The arguments go to variables of their own, so that each sees the parameters' old values. -/
def stageArgs (baseTmp : Local) (span : Span) (args : List Operand) : List Statement :=
  args.mapIdx fun j arg => ⟨.assign (baseTmp + j) (.use arg), span⟩

def copyParams (baseTmp : Local) (span : Span) (argCount : Nat) : List Statement :=
  (List.range argCount).map fun j => ⟨.assign (j + 1) (.use (.copy (baseTmp + j))), span⟩

def jumpBlock (header : BasicBlockId) (baseTmp : Local) (args : List Operand) (bb : BasicBlock) :
    BasicBlock :=
  let span := (bb.statements.getLast?.map (·.span)).getD .default
  ⟨bb.statements.dropLast.dropLast ++ stageArgs baseTmp span args ++
      copyParams baseTmp span args.length,
    some ⟨.goto header, span⟩⟩

def rewriteBlock (header : BasicBlockId) (func : MirFunction) (bbIdx : BasicBlockId) : MirFunction :=
  match func.basicBlocks[bbIdx]? with
  | none => func
  | some bb =>
    match tailCallArgs bb func.name func.argCount with
    | none => func
    | some args =>
      { func with
        locals := func.locals ++ List.replicate func.argCount stageDecl
        basicBlocks := func.basicBlocks.set bbIdx (jumpBlock header func.locals.length args bb) }

def run (func : MirFunction) : MirFunction × Bool :=
  match splitEntry func with
  | none => (func, false)
  | some (split, header) =>
    ((List.range split.basicBlocks.length).foldl (rewriteBlock header) split, true)

end TailCall

end Olive

/-! What `TailCallOpt` makes of a function. -/

namespace Olive

namespace TailCall

variable {f g : MirFunction} {block : BasicBlock} {args : List Operand} {funcName : String}
  {argCount : Nat}

/-- A block that ends in a self tail call. -/
theorem tailCallArgs_some (h : tailCallArgs block funcName argCount = some args) :
    ∃ pre dst op s s' span, block = ⟨pre ++ [⟨.assign dst (.call (.const (.function funcName)) args), s⟩,
        ⟨.assign 0 (.use op), s'⟩], some ⟨.ret, span⟩⟩ ∧
      op.local? = some dst ∧ args.length = argCount := by
  obtain ⟨stmts, term⟩ := block
  unfold tailCallArgs at h
  split at h
  next span op s' dest name args' s rest hterm hrev =>
    split at h
    next hc =>
      cases h
      obtain ⟨hlocal, rfl, hlen⟩ := hc
      refine ⟨rest.reverse, dest, op, s, s', span, ?_, hlocal, hlen⟩
      have hstmts : stmts = rest.reverse ++ [⟨.assign dest (.call (.const (.function name)) args), s⟩,
          ⟨.assign 0 (.use op), s'⟩] := by
        rw [← List.reverse_reverse stmts, hrev]
        simp
      rw [hstmts]
      exact congrArg _ hterm
    next => cases h
  next => cases h

theorem tailCallArgs_of {pre : List Statement} {dst : Local} {op : Operand} {args : List Operand}
    {s s' span : Span} (hop : op.local? = some dst) (hlen : args.length = argCount) :
    tailCallArgs ⟨pre ++ [⟨.assign dst (.call (.const (.function funcName)) args), s⟩,
      ⟨.assign 0 (.use op), s'⟩], some ⟨.ret, span⟩⟩ funcName argCount = some args := by
  unfold tailCallArgs
  simp [hop, hlen]

/-- Where the body of block `bb` is: the entry's has moved. -/
def home (f : MirFunction) (bb : BasicBlockId) : BasicBlockId :=
  if bb = 0 then f.basicBlocks.length else bb

/-- `block'` is `block`, or jumps where `block` calls. -/
def Turned (f : MirFunction) (block block' : BasicBlock) : Prop :=
  match tailCallArgs block f.name f.argCount with
  | none => block' = block
  | some args => ∃ base, f.locals.length ≤ base ∧ block' = jumpBlock f.basicBlocks.length base args block

structure Rewritten (f g : MirFunction) : Prop where
  nonempty : 0 < f.basicBlocks.length
  name : g.name = f.name
  argCount : g.argCount = f.argCount
  isAsync : g.isAsync = f.isAsync
  types : tyOf g.locals = tyOf f.locals
  entry : ∃ span, g.basicBlocks[0]? = some ⟨[], some ⟨.goto f.basicBlocks.length, span⟩⟩
  blocks : ∀ bb block, f.basicBlocks[bb]? = some block →
    ∃ block', g.basicBlocks[home f bb]? = some block' ∧ Turned f block block'

/-- New declarations of type `Any` are what undeclared locals are taken for. -/
theorem tyOf_append_any {decls extra : List LocalDecl} (h : ∀ d ∈ extra, d.ty = .any) :
    tyOf (decls ++ extra) = tyOf decls := by
  funext l
  unfold tyOf
  by_cases hl : l < decls.length
  · rw [List.getElem?_append_left hl]
  · rw [List.getElem?_append_right (Nat.le_of_not_lt hl), List.getElem?_eq_none (Nat.le_of_not_lt hl)]
    cases hd : extra[l - decls.length]? with
    | none => rfl
    | some d => exact h d (List.mem_of_getElem? hd)

/-- After the blocks before `k` have been looked at. -/
structure Partial (f split func : MirFunction) (k : Nat) : Prop where
  name : func.name = f.name
  argCount : func.argCount = f.argCount
  isAsync : func.isAsync = f.isAsync
  locals : ∃ extra, func.locals = f.locals ++ extra ∧ ∀ d ∈ extra, d.ty = .any
  length : func.basicBlocks.length = split.basicBlocks.length
  done : ∀ i block, i < k → split.basicBlocks[i]? = some block →
    ∃ block', func.basicBlocks[i]? = some block' ∧ Turned f block block'
  rest : ∀ i, k ≤ i → func.basicBlocks[i]? = split.basicBlocks[i]?

theorem Partial.next {split func : MirFunction} {k : Nat} (h : Partial f split func k) :
    Partial f split (rewriteBlock f.basicBlocks.length func k) (k + 1) := by
  obtain ⟨extra, hlocals, hany⟩ := h.locals
  have hsame : func.basicBlocks[k]? = split.basicBlocks[k]? := h.rest k le_rfl
  unfold rewriteBlock
  split
  next hnone =>
    refine ⟨h.name, h.argCount, h.isAsync, h.locals, h.length, ?_, fun i hi => h.rest i (by omega)⟩
    intro i block hi hblock
    rcases Nat.lt_succ_iff_lt_or_eq.mp hi with hi | rfl
    · exact h.done i block hi hblock
    · rw [hsame, hblock] at hnone
      cases hnone
  next bb hbb =>
    rw [h.name, h.argCount]
    split
    next hcall =>
      refine ⟨h.name, h.argCount, h.isAsync, h.locals, h.length, ?_, fun i hi => h.rest i (by omega)⟩
      intro i block hi hblock
      rcases Nat.lt_succ_iff_lt_or_eq.mp hi with hi | rfl
      · exact h.done i block hi hblock
      · obtain rfl : bb = block := Option.some.inj (hbb.symm.trans (hsame.trans hblock))
        exact ⟨bb, hbb, by rw [Turned, hcall]⟩
    next args hcall =>
      have hk : k < func.basicBlocks.length := (List.getElem?_eq_some_iff.mp hbb).1
      refine ⟨rfl, rfl, h.isAsync, ?_, ?_, ?_, ?_⟩
      · refine ⟨extra ++ List.replicate f.argCount stageDecl, by simp [hlocals], fun d hd => ?_⟩
        rcases List.mem_append.mp hd with hd | hd
        · exact hany d hd
        · rw [List.eq_of_mem_replicate hd]
          rfl
      · simpa using h.length
      · intro i block hi hblock
        simp only [List.getElem?_set]
        rcases Nat.lt_succ_iff_lt_or_eq.mp hi with hi | rfl
        · rw [if_neg (by omega)]
          exact h.done i block hi hblock
        · obtain rfl : bb = block := Option.some.inj (hbb.symm.trans (hsame.trans hblock))
          rw [if_pos rfl, if_pos hk]
          refine ⟨_, rfl, ?_⟩
          rw [Turned, hcall]
          exact ⟨func.locals.length, by simp [hlocals], rfl⟩
      · intro i hi
        simp only [List.getElem?_set]
        rw [if_neg (by omega)]
        exact h.rest i (by omega)

theorem partial_fold {split : MirFunction} (h : Partial f split split 0) (k : Nat) :
    Partial f split ((List.range k).foldl (rewriteBlock f.basicBlocks.length) split) k := by
  induction k with
  | zero => exact h
  | succ k ih =>
    rw [List.range_succ, List.foldl_append]
    exact ih.next

/-- The function whose entry has moved. -/
structure Split (f split : MirFunction) : Prop where
  nonempty : 0 < f.basicBlocks.length
  start : Partial f split split 0
  entry : ∃ span, split.basicBlocks[0]? = some ⟨[], some ⟨.goto f.basicBlocks.length, span⟩⟩
  blocks : ∀ bb block, f.basicBlocks[bb]? = some block → split.basicBlocks[home f bb]? = some block

theorem splitEntry_cases (f : MirFunction) :
    ((∀ block ∈ f.basicBlocks, tailCallArgs block f.name f.argCount = none) ∧ splitEntry f = none) ∨
      ∃ split, splitEntry f = some (split, f.basicBlocks.length) ∧ Split f split := by
  unfold splitEntry
  by_cases hany : f.basicBlocks.any fun bb => (tailCallArgs bb f.name f.argCount).isSome
  · rw [if_pos hany]
    cases hblocks : f.basicBlocks with
    | nil =>
      rw [hblocks] at hany
      cases hany
    | cons entry rest =>
      refine .inr ⟨_, rfl, by simp [hblocks],
        ⟨rfl, rfl, rfl, ⟨[], (List.append_nil _).symm, by simp⟩, rfl, ?_, fun _ _ => rfl⟩,
        ⟨_, by rw [hblocks]; rfl⟩, ?_⟩
      · exact fun i block hi => absurd hi (Nat.not_lt_zero i)
      · intro bb block hb
        cases bb with
        | zero =>
          rw [hblocks] at hb
          obtain rfl : entry = block := Option.some.inj hb
          simp [home, hblocks]
        | succ i =>
          have hi : i < rest.length := by
            have hlt := (List.getElem?_eq_some_iff.mp hb).1
            rw [hblocks, List.length_cons] at hlt
            omega
          rw [hblocks, List.getElem?_cons_succ] at hb
          simp only [home, Nat.succ_ne_zero, if_false, List.cons_append, List.getElem?_cons_succ]
          rw [List.getElem?_append_left hi]
          exact hb
  · rw [if_neg hany]
    refine .inl ⟨fun block hblock => ?_, rfl⟩
    rw [← Option.not_isSome_iff_eq_none]
    exact fun hsome => hany (List.any_eq_true.mpr ⟨block, hblock, hsome⟩)

/-- Either no block ends in a self tail call and nothing changes, or the function is rewritten. -/
theorem run_rewrites (f : MirFunction) :
    ((∀ block ∈ f.basicBlocks, tailCallArgs block f.name f.argCount = none) ∧ run f = (f, false)) ∨
      Rewritten f (run f).1 ∧ (run f).2 = true := by
  rcases splitEntry_cases f with ⟨hnone, hsplit⟩ | ⟨split, hsplit, hs⟩
  · exact .inl ⟨hnone, by rw [run, hsplit]⟩
  · have hrun : run f =
        ((List.range split.basicBlocks.length).foldl (rewriteBlock f.basicBlocks.length) split, true) := by
      rw [run, hsplit]
    rw [hrun]
    have hdone := partial_fold hs.start split.basicBlocks.length
    obtain ⟨extra, hlocals, hextra⟩ := hdone.locals
    obtain ⟨span, hentry⟩ := hs.entry
    refine .inr ⟨⟨hs.nonempty, hdone.name, hdone.argCount, hdone.isAsync, ?_, ⟨span, ?_⟩, ?_⟩, rfl⟩
    · rw [hlocals]
      exact tyOf_append_any hextra
    · obtain ⟨block', hblock', hturned⟩ :=
        hdone.done 0 _ (List.getElem?_eq_some_iff.mp hentry).1 hentry
      exact hblock'.trans (congrArg some hturned)
    · intro bb block hb
      have hblock := hs.blocks bb block hb
      exact hdone.done _ block (List.getElem?_eq_some_iff.mp hblock).1 hblock

end TailCall

end Olive
