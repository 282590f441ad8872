import Mathlib.Data.List.Nodup
import Olive.Scoping

/-! The builder's frames against the resolver's scopes: they agree at an occurrence exactly when its
name is not hijacked. -/

namespace Olive

namespace Scoping

namespace Frames

variable {α : Type}

@[simp] theorem lookup_push (frames : Frames α) (name : String) :
    frames.push.lookup name = frames.lookup name := rfl

@[simp] theorem pop_cons (frame : List (String × α)) (outer : Frames α) :
    Frames.pop (frame :: outer) = outer := rfl

@[simp] theorem define_cons (frame : List (String × α)) (outer : Frames α) (name : String) (a : α) :
    Frames.define (frame :: outer) name a = ((name, a) :: frame) :: outer := rfl

theorem lookup_cons (frame : List (String × α)) (outer : Frames α) (name : String) :
    Frames.lookup (frame :: outer) name = (List.lookup name frame).or (Frames.lookup outer name) := by
  rw [Frames.lookup, List.findSome?_cons]
  cases List.lookup name frame <;> rfl

/-- What is added to the innermost frame is found first. -/
theorem lookup_added (added frame : List (String × α)) (outer : Frames α) (name : String) :
    Frames.lookup ((added ++ frame) :: outer) name =
      (List.lookup name added).or (Frames.lookup (frame :: outer) name) := by
  rw [lookup_cons, lookup_cons, List.lookup_append, Option.or_assoc]

end Frames

theorem lookup_isSome_iff_mem {α : Type} {entries : List (String × α)} {name : String} :
    (List.lookup name entries).isSome = true ↔ name ∈ entries.map Prod.fst := by
  rw [List.lookup_isSome_iff, List.mem_map]
  constructor
  · intro ⟨entry, hentry, hname⟩
    exact ⟨entry, hentry, (beq_iff_eq.mp hname).symm⟩
  · intro ⟨entry, hentry, hname⟩
    exact ⟨entry, hentry, beq_iff_eq.mpr hname.symm⟩

theorem mem_of_lookup {α : Type} {entries : List (String × α)} {name : String} {a : α}
    (h : List.lookup name entries = some a) : (name, a) ∈ entries := by
  obtain ⟨before, after, hentries, -⟩ := List.lookup_eq_some_iff.mp h
  rw [hentries]
  exact List.mem_append_right _ List.mem_cons_self

/-- What lowering adds to the open frame: entries for these names, each for a local of these
declarations. -/
structure Made (added : List (String × Local)) (names : List String) (ds : List (Span × Bool)) : Prop where
  names : ∀ n, n ∈ added.map Prod.fst ↔ n ∈ names
  decls : ∀ n l, (n, l) ∈ added → ∀ d ∈ l, (d, true) ∈ ds

section Made

variable {added added' : List (String × Local)} {names names' : List String} {ds ds' : List (Span × Bool)}

theorem Made.nil : Made [] [] [] :=
  ⟨by simp, by simp⟩

theorem Made.append (h : Made added names ds) (h' : Made added' names' ds') :
    Made (added' ++ added) (names ++ names') (ds ++ ds') := by
  constructor
  · intro n
    rw [List.map_append, List.mem_append, List.mem_append, h.names n, h'.names n]
    exact Or.comm
  · intro n l hl d hd
    rcases List.mem_append.mp hl with hl | hl
    · exact List.mem_append_right _ (h'.decls n l hl d hd)
    · exact List.mem_append_left _ (h.decls n l hl d hd)

theorem Made.mono (h : Made added names ds) (hsub : ds ⊆ ds') : Made added names ds' :=
  ⟨h.names, fun n l hl d hd => hsub (h.decls n l hl d hd)⟩

end Made

section Patterns

/-- The resolver and the builder bind the same names, and the builder's locals are of the
declarations that the resolver finds. -/
structure Bound (defs : List (String × Span)) (added : List (String × Local))
    (bindings : List (String × Span)) : Prop where
  order : defs = bindings.reverse
  made : Made added (bindings.map Prod.fst) (declared bindings)
  found : ∀ n d, List.lookup n defs = some d → ∃ l, List.lookup n added = some l ∧ d ∈ l

theorem mem_declared {bindings : List (String × Span)} {d : Span} {b : Bool} :
    (d, b) ∈ declared bindings ↔ b = true ∧ ∃ n, (n, d) ∈ bindings := by
  simp [declared, and_comm]

theorem Bound.nil : Bound [] [] [] :=
  ⟨rfl, Made.nil, by simp⟩

theorem Bound.append {defs defs' : List (String × Span)} {added added' : List (String × Local)}
    {bindings bindings' : List (String × Span)} (h : Bound defs added bindings)
    (h' : Bound defs' added' bindings') :
    Bound (defs' ++ defs) (added' ++ added) (bindings ++ bindings') := by
  refine ⟨by rw [h.order, h'.order, List.reverse_append], ?_, ?_⟩
  · have happend := h.made.append h'.made
    rw [List.map_append]
    rw [declared, List.map_append]
    exact happend
  · intro n d hd
    rw [List.lookup_append] at hd ⊢
    cases hlater : List.lookup n defs' with
    | some d' =>
      rw [hlater] at hd
      obtain rfl := Option.some.inj hd
      obtain ⟨l, hl, hmem⟩ := h'.found n d' hlater
      exact ⟨l, by rw [hl]; rfl, hmem⟩
    | none =>
      rw [hlater] at hd
      have hnot : List.lookup n added' = none := by
        rw [← Option.not_isSome_iff_eq_none, lookup_isSome_iff_mem, h'.made.names]
        have hmem : ¬ n ∈ defs'.map Prod.fst := by
          rw [← lookup_isSome_iff_mem, hlater]
          simp
        rw [h'.order] at hmem
        simpa using hmem
      rw [hnot]
      exact h.found n d hd

theorem Bound.single (name : String) (span : Span) :
    Bound [(name, span)] [(name, [span])] [(name, span)] := by
  refine ⟨rfl, ⟨fun n => by simp, fun n l hl d hd => ?_⟩, fun n d hd => ?_⟩
  · cases List.mem_singleton.mp hl
    rw [List.mem_singleton.mp hd]
    exact mem_declared.mpr ⟨rfl, name, List.mem_singleton_self _⟩
  · have hmem := mem_of_lookup hd
    cases List.mem_singleton.mp hmem
    exact ⟨[span], List.lookup_cons_self, List.mem_singleton_self span⟩

theorem defineAll_cons (scope : List (String × Span)) (outer : SymbolTable)
    (names : List (String × Span)) :
    defineAll (scope :: outer) names = (names.reverse ++ scope) :: outer := by
  induction names generalizing scope with
  | nil => rfl
  | cons n names ih =>
    have hstep := ih (n :: scope)
    simpa [defineAll] using hstep

/-- The entries for the names of a target or of a `let`. -/
def ownEntries (names : List (String × Span)) : List (String × Local) :=
  (names.map fun n => (n.1, [n.2])).reverse

theorem declareAll_cons (frame : List (String × Local)) (outer : VarMap)
    (names : List (String × Span)) :
    declareAll (frame :: outer) names = (ownEntries names ++ frame) :: outer := by
  induction names generalizing frame with
  | nil => rfl
  | cons n names ih =>
    have hstep := ih ((n.1, [n.2]) :: frame)
    simpa [declareAll, ownEntries] using hstep

theorem bound_names (names : List (String × Span)) :
    Bound names.reverse (ownEntries names) names := by
  induction names with
  | nil => exact Bound.nil
  | cons n names ih =>
    have happend := (Bound.single n.1 n.2).append ih
    simpa [ownEntries] using happend

mutual
theorem resolvePattern_cons (scope : List (String × Span)) (outer : SymbolTable) (p : Pattern) :
    resolvePattern (scope :: outer) p = ((patternBindings p).reverse ++ scope) :: outer := by
  cases p with
  | wildcard => rfl
  | literal => rfl
  | range => rfl
  | identifier name span => rfl
  | variant name inner => exact resolvePatterns_cons scope outer inner
  | tuple items => exact resolvePatterns_cons scope outer items
  | structFields name fields => exact resolvePatterns_cons scope outer fields
  | or alts typed => exact resolvePatterns_cons scope outer alts
  | list before rest after =>
    rw [resolvePattern, resolvePatterns_cons, resolvePatterns_cons, defineAll_cons, patternBindings]
    simp
theorem resolvePatterns_cons (scope : List (String × Span)) (outer : SymbolTable)
    (ps : List Pattern) :
    resolvePatterns (scope :: outer) ps = ((patternsBindings ps).reverse ++ scope) :: outer := by
  cases ps with
  | nil => rfl
  | cons p ps =>
    rw [resolvePatterns, resolvePattern_cons, resolvePatterns_cons, patternsBindings]
    simp
end

theorem lookup_reverse_isSome {bindings : List (String × Span)} {name : String} :
    (List.lookup name bindings.reverse).isSome = true ↔ name ∈ bindings.map Prod.fst := by
  rw [lookup_isSome_iff_mem]
  simp

theorem mem_sharedLocal {alts : List Pattern} {name : String} {d : Span} :
    d ∈ sharedLocal alts name ↔ (name, d) ∈ patternsBindings alts := by
  simp [sharedLocal]

theorem sharedNames_subset {alts : List Pattern} {typed : String → Bool} {name : String}
    (h : name ∈ sharedNames alts typed) : name ∈ (patternsBindings alts).map Prod.fst := by
  cases alts with
  | nil => cases h
  | cons first alts =>
    have hmem := (List.mem_filter.mp h).1
    rw [patternsBindings, List.map_append]
    exact List.mem_append_left _ hmem

/-- The locals that the alternatives share come after their own. -/
theorem bound_shared {alts : List Pattern} {added : List (String × Local)}
    (h : Bound (patternsBindings alts).reverse added (patternsBindings alts)) (names : List String)
    (hnames : ∀ n ∈ names, n ∈ (patternsBindings alts).map Prod.fst)
    (frame : List (String × Local)) (outer : VarMap) :
    ∃ added', names.foldl (fun (vars : VarMap) name => vars.define name (sharedLocal alts name))
        ((added ++ frame) :: outer) = (added' ++ frame) :: outer ∧
      Bound (patternsBindings alts).reverse added' (patternsBindings alts) := by
  induction names generalizing added with
  | nil => exact ⟨added, rfl, h⟩
  | cons name names ih =>
    have hname := hnames name List.mem_cons_self
    have hnext : Bound (patternsBindings alts).reverse ((name, sharedLocal alts name) :: added)
        (patternsBindings alts) := by
      refine ⟨rfl, ⟨fun n => ?_, fun n l hl d hd => ?_⟩, fun n d hd => ?_⟩
      · rw [List.map_cons, List.mem_cons, h.made.names]
        constructor
        · rintro (rfl | hn)
          · exact hname
          · exact hn
        · exact Or.inr
      · rcases List.mem_cons.mp hl with heq | hl
        · cases heq
          exact mem_declared.mpr ⟨rfl, name, mem_sharedLocal.mp hd⟩
        · exact h.made.decls n l hl d hd
      · by_cases hn : n = name
        · subst hn
          refine ⟨sharedLocal alts n, List.lookup_cons_self, ?_⟩
          have hmem := mem_of_lookup hd
          exact mem_sharedLocal.mpr (List.mem_reverse.mp hmem)
        · obtain ⟨l, hl, hmem⟩ := h.found n d hd
          refine ⟨l, ?_, hmem⟩
          rw [List.lookup_cons, beq_false_of_ne hn]
          exact hl
    exact ih hnext (fun n hn => hnames n (List.mem_cons_of_mem _ hn))

mutual
theorem lowerPattern_bound (frame : List (String × Local)) (outer : VarMap) (p : Pattern) :
    ∃ added, lowerPattern (frame :: outer) p = (added ++ frame) :: outer ∧
      Bound (patternBindings p).reverse added (patternBindings p) := by
  cases p with
  | wildcard => exact ⟨[], rfl, Bound.nil⟩
  | literal => exact ⟨[], rfl, Bound.nil⟩
  | range => exact ⟨[], rfl, Bound.nil⟩
  | identifier name span => exact ⟨_, rfl, Bound.single name span⟩
  | variant name inner => exact lowerPatterns_bound frame outer inner
  | tuple items => exact lowerPatterns_bound frame outer items
  | structFields name fields => exact lowerPatterns_bound frame outer fields
  | or alts typed =>
    obtain ⟨added, hadded, hbound⟩ := lowerPatterns_bound frame outer alts
    rw [lowerPattern, hadded]
    exact bound_shared hbound _ (fun n hn => sharedNames_subset hn) frame outer
  | list before rest after =>
    obtain ⟨added, hadded, hbound⟩ := lowerPatterns_bound frame outer before
    obtain ⟨added', hadded', hbound'⟩ := lowerPatterns_bound (added ++ frame) outer after
    refine ⟨ownEntries rest.toList ++ (added' ++ added), ?_, ?_⟩
    · rw [lowerPattern, hadded, hadded', declareAll_cons]
      simp only [List.append_assoc]
    · have happend := (hbound.append hbound').append (bound_names rest.toList)
      rw [patternBindings]
      simpa using happend
theorem lowerPatterns_bound (frame : List (String × Local)) (outer : VarMap) (ps : List Pattern) :
    ∃ added, lowerPatterns (frame :: outer) ps = (added ++ frame) :: outer ∧
      Bound (patternsBindings ps).reverse added (patternsBindings ps) := by
  cases ps with
  | nil => exact ⟨[], rfl, Bound.nil⟩
  | cons p ps =>
    obtain ⟨added, hadded, hbound⟩ := lowerPattern_bound frame outer p
    obtain ⟨added', hadded', hbound'⟩ := lowerPatterns_bound (added ++ frame) outer ps
    refine ⟨added' ++ added, ?_, ?_⟩
    · rw [lowerPatterns, hadded, hadded', List.append_assoc]
    · have happend := hbound.append hbound'
      rw [patternsBindings]
      simpa using happend
end

end Patterns

section Tables

/-- What a statement binds in the scope that it stands in. -/
def stmtBindings : Stmt → List (String × Span)
  | .letStmt name span _ => [(name, span)]
  | .multiLet names _ => names
  | _ => []

mutual
/-- An expression leaves the scopes as they are, and a statement binds in the innermost only. -/
theorem resolveExpr_table (table : SymbolTable) (e : Expr) : (resolveExpr table e).1 = table := by
  cases e with
  | identifier name site => rfl
  | node operands => exact resolveExprs_table table operands
  | comprehension clauses elts =>
    obtain ⟨scope, hscope⟩ := resolveCompClauses_table [] table clauses
    rw [resolveExpr]
    show Frames.pop (resolveExprs (resolveCompClauses ([] :: table) clauses).1 elts).1 = table
    rw [resolveExprs_table, hscope]
    rfl
  | matchExpr scrutinee cases =>
    rw [resolveExpr]
    show (resolveCases (resolveExpr table scrutinee).1 cases).1 = table
    rw [resolveCases_table, resolveExpr_table]
theorem resolveExprs_table (table : SymbolTable) (es : List Expr) :
    (resolveExprs table es).1 = table := by
  cases es with
  | nil => rfl
  | cons e es =>
    rw [resolveExprs]
    show (resolveExprs (resolveExpr table e).1 es).1 = table
    rw [resolveExprs_table, resolveExpr_table]
theorem resolveCompClauses_table (scope : List (String × Span)) (outer : SymbolTable)
    (clauses : List CompClause) :
    ∃ scope', (resolveCompClauses (scope :: outer) clauses).1 = scope' :: outer := by
  cases clauses with
  | nil => exact ⟨scope, rfl⟩
  | cons clause clauses =>
    obtain ⟨target, iter, condition⟩ := clause
    obtain ⟨scope', hscope⟩ :=
      resolveCompClauses_table (target.bindings.reverse ++ scope) outer clauses
    refine ⟨scope', ?_⟩
    rw [resolveCompClauses]
    show (resolveCompClauses (resolveExprs (defineAll (resolveExpr (scope :: outer) iter).1
      target.bindings) condition).1 clauses).1 = scope' :: outer
    rw [resolveExprs_table, resolveExpr_table, defineAll_cons, hscope]
theorem resolveCases_table (table : SymbolTable) (cases : List MatchCase) :
    (resolveCases table cases).1 = table := by
  cases cases with
  | nil => rfl
  | cons case cases =>
    obtain ⟨pattern, guard, body⟩ := case
    obtain ⟨scope, hscope⟩ :=
      resolveStmts_table ((patternBindings pattern).reverse ++ []) table body
    rw [resolveCases]
    show (resolveCases (resolveStmts (resolveExprs (resolvePattern ([] :: table) pattern) guard).1
      body).1.pop cases).1 = table
    rw [resolveCases_table, resolveExprs_table, resolvePattern_cons, hscope]
    rfl
theorem resolveAssignTarget_table (table : SymbolTable) (target : AssignTarget) :
    (resolveAssignTarget table target).1 = table := by
  cases target with
  | identifier name site => rfl
  | place operands => exact resolveExprs_table table operands
  | tuple names => rfl
theorem resolveStmt_table (scope : List (String × Span)) (outer : SymbolTable) (st : Stmt) :
    (resolveStmt (scope :: outer) st).1 = ((stmtBindings st).reverse ++ scope) :: outer := by
  cases st with
  | letStmt name span value =>
    rw [resolveStmt]
    show Frames.define (resolveExpr (scope :: outer) value).1 name span = _
    rw [resolveExpr_table]
    rfl
  | multiLet names value =>
    rw [resolveStmt]
    show defineAll (resolveExpr (scope :: outer) value).1 names = _
    rw [resolveExpr_table, defineAll_cons]
    rfl
  | assign target value =>
    rw [resolveStmt]
    show (resolveAssignTarget (resolveExpr (scope :: outer) value).1 target).1 = _
    rw [resolveAssignTarget_table, resolveExpr_table]
    rfl
  | augAssign target value =>
    rw [resolveStmt]
    show (resolveAssignTarget (resolveExpr (scope :: outer) value).1 target).1 = _
    rw [resolveAssignTarget_table, resolveExpr_table]
    rfl
  | ifStmt branches elseBody =>
    obtain ⟨scope', hscope⟩ := resolveStmts_table [] (scope :: outer) elseBody
    rw [resolveStmt]
    show Frames.pop (resolveStmts ([] :: (resolveBranches (scope :: outer) branches).1) elseBody).1 = _
    rw [resolveBranches_table, hscope]
    rfl
  | whileStmt condition body elseBody =>
    obtain ⟨scope', hscope⟩ := resolveStmts_table [] (scope :: outer) body
    obtain ⟨scope'', helse⟩ := resolveStmts_table [] (scope :: outer) elseBody
    rw [resolveStmt]
    show Frames.pop (resolveStmts ([] :: Frames.pop (resolveStmts
      ([] :: (resolveExpr (scope :: outer) condition).1) body).1) elseBody).1 = _
    rw [resolveExpr_table, hscope, Frames.pop_cons, helse]
    rfl
  | forStmt kind target operands step body elseBody =>
    obtain ⟨scope', hscope⟩ :=
      resolveStmts_table (target.bindings.reverse ++ []) (scope :: outer) body
    obtain ⟨scope'', helse⟩ := resolveStmts_table [] (scope :: outer) elseBody
    rw [resolveStmt]
    show Frames.pop (resolveStmts ([] :: Frames.pop (resolveStmts (defineAll
      ([] :: (resolveExprs (scope :: outer) operands).1) target.bindings) body).1) elseBody).1 = _
    rw [resolveExprs_table, defineAll_cons, hscope, Frames.pop_cons, helse]
    rfl
  | exprs values => exact resolveExprs_table (scope :: outer) values
theorem resolveStmts_table (scope : List (String × Span)) (outer : SymbolTable) (stmts : List Stmt) :
    ∃ scope', (resolveStmts (scope :: outer) stmts).1 = scope' :: outer := by
  cases stmts with
  | nil => exact ⟨scope, rfl⟩
  | cons st stmts =>
    obtain ⟨scope', hrest⟩ := resolveStmts_table ((stmtBindings st).reverse ++ scope) outer stmts
    refine ⟨scope', ?_⟩
    rw [resolveStmts]
    show (resolveStmts (resolveStmt (scope :: outer) st).1 stmts).1 = _
    rw [resolveStmt_table, hrest]
theorem resolveBranches_table (table : SymbolTable) (branches : List Branch) :
    (resolveBranches table branches).1 = table := by
  cases branches with
  | nil => rfl
  | cons branch branches =>
    obtain ⟨condition, body⟩ := branch
    obtain ⟨scope, hscope⟩ := resolveStmts_table [] table body
    rw [resolveBranches]
    show (resolveBranches (resolveStmts ([] :: (resolveExpr table condition).1) body).1.pop
      branches).1 = table
    rw [resolveExpr_table, hscope, Frames.pop_cons, resolveBranches_table]
end

end Tables

section Resolved

mutual
/-- What an occurrence resolves to changes neither the names nor the declarations. -/
theorem resolveExpr_names (table : SymbolTable) (e : Expr) :
    exprNames (resolveExpr table e).2 = exprNames e ∧
      exprDecls (resolveExpr table e).2 = exprDecls e := by
  cases e with
  | identifier name site => exact ⟨rfl, rfl⟩
  | node operands => exact resolveExprs_names table operands
  | comprehension clauses elts =>
    obtain ⟨hnames, hdecls⟩ := resolveCompClauses_names table.push clauses
    obtain ⟨hnames', hdecls'⟩ := resolveExprs_names (resolveCompClauses table.push clauses).1 elts
    rw [resolveExpr]
    simp only [exprNames, exprDecls, hnames, hnames', hdecls, hdecls', and_self]
  | matchExpr scrutinee cases =>
    obtain ⟨hnames, hdecls⟩ := resolveExpr_names table scrutinee
    obtain ⟨hnames', hdecls'⟩ := resolveCases_names (resolveExpr table scrutinee).1 cases
    rw [resolveExpr]
    simp only [exprNames, exprDecls, hnames, hnames', hdecls, hdecls', and_self]
theorem resolveExprs_names (table : SymbolTable) (es : List Expr) :
    exprsNames (resolveExprs table es).2 = exprsNames es ∧
      exprsDecls (resolveExprs table es).2 = exprsDecls es := by
  cases es with
  | nil => exact ⟨rfl, rfl⟩
  | cons e es =>
    obtain ⟨hnames, hdecls⟩ := resolveExpr_names table e
    obtain ⟨hnames', hdecls'⟩ := resolveExprs_names (resolveExpr table e).1 es
    rw [resolveExprs]
    simp only [exprsNames, exprsDecls, hnames, hnames', hdecls, hdecls', and_self]
theorem resolveCompClauses_names (table : SymbolTable) (clauses : List CompClause) :
    clausesNames (resolveCompClauses table clauses).2 = clausesNames clauses ∧
      clausesDecls (resolveCompClauses table clauses).2 = clausesDecls clauses := by
  cases clauses with
  | nil => exact ⟨rfl, rfl⟩
  | cons clause clauses =>
    obtain ⟨target, iter, condition⟩ := clause
    rw [resolveCompClauses]
    have hiter := resolveExpr_names table iter
    have hcondition := resolveExprs_names
      (defineAll (resolveExpr table iter).1 target.bindings) condition
    have hclauses := resolveCompClauses_names (resolveExprs
      (defineAll (resolveExpr table iter).1 target.bindings) condition).1 clauses
    simp only [clausesNames, clausesDecls, hiter.1, hiter.2, hcondition.1, hcondition.2, hclauses.1,
      hclauses.2, and_self]
theorem resolveCases_names (table : SymbolTable) (cases : List MatchCase) :
    casesNames (resolveCases table cases).2 = casesNames cases ∧
      casesDecls (resolveCases table cases).2 = casesDecls cases := by
  cases cases with
  | nil => exact ⟨rfl, rfl⟩
  | cons case cases =>
    obtain ⟨pattern, guard, body⟩ := case
    rw [resolveCases]
    have hguard := resolveExprs_names (resolvePattern table.push pattern) guard
    have hbody := resolveStmts_names (resolveExprs (resolvePattern table.push pattern) guard).1 body
    have hcases := resolveCases_names (resolveStmts
      (resolveExprs (resolvePattern table.push pattern) guard).1 body).1.pop cases
    simp only [casesNames, casesDecls, hguard.2, hbody.2, hcases.1, hcases.2, and_self]
theorem resolveAssignTarget_names (table : SymbolTable) (target : AssignTarget) :
    targetNames (resolveAssignTarget table target).2 = targetNames target ∧
      targetDecls (resolveAssignTarget table target).2 = targetDecls target := by
  cases target with
  | identifier name site => exact ⟨rfl, rfl⟩
  | place operands => exact resolveExprs_names table operands
  | tuple names => exact ⟨rfl, rfl⟩
theorem resolveStmt_names (table : SymbolTable) (st : Stmt) :
    stmtNames (resolveStmt table st).2 = stmtNames st ∧
      stmtDecls (resolveStmt table st).2 = stmtDecls st := by
  cases st with
  | letStmt name span value =>
    have hvalue := resolveExpr_names table value
    rw [resolveStmt]
    simp only [stmtNames, stmtDecls, hvalue.1, hvalue.2, and_self]
  | multiLet names value =>
    have hvalue := resolveExpr_names table value
    rw [resolveStmt]
    simp only [stmtNames, stmtDecls, hvalue.1, hvalue.2, and_self]
  | assign target value =>
    have hvalue := resolveExpr_names table value
    have htarget := resolveAssignTarget_names (resolveExpr table value).1 target
    rw [resolveStmt]
    simp only [stmtNames, stmtDecls, hvalue.1, hvalue.2, htarget.1, htarget.2, and_self]
  | augAssign target value =>
    have hvalue := resolveExpr_names table value
    have htarget := resolveAssignTarget_names (resolveExpr table value).1 target
    rw [resolveStmt]
    simp only [stmtNames, stmtDecls, hvalue.1, hvalue.2, htarget.1, htarget.2, and_self]
  | ifStmt branches elseBody =>
    have hbranches := resolveBranches_names table branches
    have helse := resolveStmts_names (resolveBranches table branches).1.push elseBody
    rw [resolveStmt]
    simp only [stmtNames, stmtDecls, hbranches.1, hbranches.2, helse.2, and_self]
  | whileStmt condition body elseBody =>
    have hcondition := resolveExpr_names table condition
    have hbody := resolveStmts_names (resolveExpr table condition).1.push body
    have helse := resolveStmts_names
      (resolveStmts (resolveExpr table condition).1.push body).1.pop.push elseBody
    rw [resolveStmt]
    simp only [stmtNames, stmtDecls, hcondition.1, hcondition.2, hbody.2, helse.2, and_self]
  | forStmt kind target operands step body elseBody =>
    have hoperands := resolveExprs_names table operands
    have hbody := resolveStmts_names
      (defineAll (resolveExprs table operands).1.push target.bindings) body
    have helse := resolveStmts_names (resolveStmts
      (defineAll (resolveExprs table operands).1.push target.bindings) body).1.pop.push elseBody
    rw [resolveStmt]
    simp only [stmtNames, stmtDecls, hoperands.1, hoperands.2, hbody.2, helse.2, and_self]
  | exprs values => exact resolveExprs_names table values
theorem resolveStmts_names (table : SymbolTable) (stmts : List Stmt) :
    stmtsNames (resolveStmts table stmts).2 = stmtsNames stmts ∧
      stmtsDecls (resolveStmts table stmts).2 = stmtsDecls stmts := by
  cases stmts with
  | nil => exact ⟨rfl, rfl⟩
  | cons st stmts =>
    have hst := resolveStmt_names table st
    have hstmts := resolveStmts_names (resolveStmt table st).1 stmts
    rw [resolveStmts]
    simp only [stmtsNames, stmtsDecls, hst.1, hst.2, hstmts.1, hstmts.2, and_self]
theorem resolveBranches_names (table : SymbolTable) (branches : List Branch) :
    branchesNames (resolveBranches table branches).2 = branchesNames branches ∧
      branchesDecls (resolveBranches table branches).2 = branchesDecls branches := by
  cases branches with
  | nil => exact ⟨rfl, rfl⟩
  | cons branch branches =>
    obtain ⟨condition, body⟩ := branch
    have hcondition := resolveExpr_names table condition
    have hbody := resolveStmts_names (resolveExpr table condition).1.push body
    have hbranches := resolveBranches_names
      (resolveStmts (resolveExpr table condition).1.push body).1.pop branches
    rw [resolveBranches]
    simp only [branchesNames, branchesDecls, hcondition.1, hcondition.2, hbody.2, hbranches.1,
      hbranches.2, and_self]
end

end Resolved

section Lowered

mutual
/-- What lowering an expression leaves in the open frame. -/
theorem lowerExpr_made (frame : List (String × Local)) (outer : VarMap) (e : Expr) :
    ∃ added, (lowerExpr (frame :: outer) e).1 = (added ++ frame) :: outer ∧
      Made added (exprNames e) (exprDecls e) := by
  cases e with
  | identifier name site => exact ⟨[], rfl, Made.nil⟩
  | node operands => exact lowerExprs_made frame outer operands
  | comprehension clauses elts =>
    obtain ⟨added, hadded, hmade⟩ := lowerCompClauses_made frame outer clauses
    obtain ⟨added', hadded', hmade'⟩ := lowerExprs_made (added ++ frame) outer elts
    refine ⟨added' ++ added, ?_, hmade.append hmade'⟩
    rw [lowerExpr]
    show (lowerExprs (lowerCompClauses (frame :: outer) clauses).1 elts).1 = _
    rw [hadded, hadded', List.append_assoc]
  | matchExpr scrutinee cases =>
    obtain ⟨added, hadded, hmade⟩ := lowerExpr_made frame outer scrutinee
    obtain ⟨added', hadded', hmade'⟩ := lowerCases_made (added ++ frame) outer cases
    refine ⟨added' ++ added, ?_, hmade.append hmade'⟩
    rw [lowerExpr]
    show (lowerCases (lowerExpr (frame :: outer) scrutinee).1 cases).1 = _
    rw [hadded, hadded', List.append_assoc]
theorem lowerExprs_made (frame : List (String × Local)) (outer : VarMap) (es : List Expr) :
    ∃ added, (lowerExprs (frame :: outer) es).1 = (added ++ frame) :: outer ∧
      Made added (exprsNames es) (exprsDecls es) := by
  cases es with
  | nil => exact ⟨[], rfl, Made.nil⟩
  | cons e es =>
    obtain ⟨added, hadded, hmade⟩ := lowerExpr_made frame outer e
    obtain ⟨added', hadded', hmade'⟩ := lowerExprs_made (added ++ frame) outer es
    refine ⟨added' ++ added, ?_, hmade.append hmade'⟩
    rw [lowerExprs]
    show (lowerExprs (lowerExpr (frame :: outer) e).1 es).1 = _
    rw [hadded, hadded', List.append_assoc]
theorem lowerCompClauses_made (frame : List (String × Local)) (outer : VarMap)
    (clauses : List CompClause) :
    ∃ added, (lowerCompClauses (frame :: outer) clauses).1 = (added ++ frame) :: outer ∧
      Made added (clausesNames clauses) (clausesDecls clauses) := by
  cases clauses with
  | nil => exact ⟨[], rfl, Made.nil⟩
  | cons clause clauses =>
    obtain ⟨target, iter, condition⟩ := clause
    obtain ⟨added, hadded, hmade⟩ := lowerExpr_made frame outer iter
    have htarget := (bound_names target.bindings).made
    obtain ⟨added', hadded', hmade'⟩ :=
      lowerExprs_made (ownEntries target.bindings ++ (added ++ frame)) outer condition
    obtain ⟨added'', hadded'', hmade''⟩ := lowerCompClauses_made
      (added' ++ (ownEntries target.bindings ++ (added ++ frame))) outer clauses
    refine ⟨((added'' ++ added') ++ ownEntries target.bindings) ++ added, ?_,
      hmade.append (htarget.append (hmade'.append hmade''))⟩
    rw [lowerCompClauses]
    show (lowerCompClauses (lowerExprs (declareAll (lowerExpr (frame :: outer) iter).1
      target.bindings) condition).1 clauses).1 = _
    rw [hadded, declareAll_cons, hadded', hadded'']
    simp only [List.append_assoc]
theorem lowerCases_made (frame : List (String × Local)) (outer : VarMap) (cases : List MatchCase) :
    ∃ added, (lowerCases (frame :: outer) cases).1 = (added ++ frame) :: outer ∧
      Made added (casesNames cases) (casesDecls cases) := by
  cases cases with
  | nil => exact ⟨[], rfl, Made.nil⟩
  | cons case cases =>
    obtain ⟨pattern, guard, body⟩ := case
    obtain ⟨added, hadded, hbound⟩ := lowerPattern_bound frame outer pattern
    -- the guard and the body have a frame of their own
    obtain ⟨addedGuard, hguard, -⟩ := lowerExprs_made [] ((added ++ frame) :: outer) guard
    obtain ⟨addedBody, hbody, -⟩ := lowerStmts_made (addedGuard ++ []) ((added ++ frame) :: outer) body
    obtain ⟨added', hadded', hmade'⟩ := lowerCases_made (added ++ frame) outer cases
    refine ⟨added' ++ added, ?_, (hbound.made.append hmade').mono ?_⟩
    · rw [lowerCases]
      show (lowerCases (lowerStmts (lowerExprs ([] :: lowerPattern (frame :: outer) pattern)
        guard).1 body).1.pop cases).1 = _
      rw [hadded, hguard, hbody, Frames.pop_cons, hadded', List.append_assoc]
    · rw [casesDecls]
      intro d hd
      rcases List.mem_append.mp hd with hd | hd
      · exact List.mem_append_left _ hd
      · exact List.mem_append_right _ (List.mem_append_right _ (List.mem_append_right _ hd))
theorem lowerTarget_made (frame : List (String × Local)) (outer : VarMap) (target : AssignTarget) :
    ∃ added, (lowerTarget (frame :: outer) target).1 = (added ++ frame) :: outer ∧
      Made added (targetNames target) (targetDecls target) := by
  cases target with
  | identifier name site => exact ⟨[], rfl, Made.nil⟩
  | place operands => exact lowerExprs_made frame outer operands
  | tuple names => exact ⟨[], rfl, Made.nil⟩
theorem lowerStmt_made (frame : List (String × Local)) (outer : VarMap) (st : Stmt) :
    ∃ added, (lowerStmt (frame :: outer) st).1 = (added ++ frame) :: outer ∧
      Made added (stmtNames st) (stmtDecls st) := by
  cases st with
  | letStmt name span value =>
    obtain ⟨added, hadded, hmade⟩ := lowerExpr_made frame outer value
    refine ⟨(name, [span]) :: added, ?_, hmade.append (Bound.single name span).made⟩
    rw [lowerStmt]
    show Frames.define (lowerExpr (frame :: outer) value).1 name [span] = _
    rw [hadded]
    rfl
  | multiLet names value =>
    obtain ⟨added, hadded, hmade⟩ := lowerExpr_made frame outer value
    refine ⟨ownEntries names ++ added, ?_, hmade.append (bound_names names).made⟩
    rw [lowerStmt]
    show declareAll (lowerExpr (frame :: outer) value).1 names = _
    rw [hadded, declareAll_cons, List.append_assoc]
  | assign target value =>
    obtain ⟨added, hadded, hmade⟩ := lowerExpr_made frame outer value
    obtain ⟨added', hadded', hmade'⟩ := lowerTarget_made (added ++ frame) outer target
    refine ⟨added' ++ added, ?_, hmade.append hmade'⟩
    rw [lowerStmt]
    show (lowerTarget (lowerExpr (frame :: outer) value).1 target).1 = _
    rw [hadded, hadded', List.append_assoc]
  | augAssign target value =>
    obtain ⟨added, hadded, hmade⟩ := lowerTarget_made frame outer target
    obtain ⟨added', hadded', hmade'⟩ := lowerExpr_made (added ++ frame) outer value
    obtain ⟨added'', hadded'', hmade''⟩ :=
      lowerTarget_made (added' ++ (added ++ frame)) outer target
    refine ⟨(added'' ++ added') ++ added, ?_, (hmade.append (hmade'.append hmade'')).mono ?_⟩
    · rw [lowerStmt]
      show (lowerTarget (lowerExpr (lowerTarget (frame :: outer) target).1 value).1 target).1 = _
      rw [hadded, hadded', hadded'']
      simp only [List.append_assoc]
    · rw [stmtDecls]
      intro d hd
      rcases List.mem_append.mp hd with hd | hd
      · exact List.mem_append_right _ hd
      · exact hd
  | ifStmt branches elseBody =>
    obtain ⟨added, hadded, hmade⟩ := lowerBranches_made frame outer branches
    obtain ⟨addedElse, helse, -⟩ := lowerStmts_made [] ((added ++ frame) :: outer) elseBody
    refine ⟨added, ?_, hmade.mono (List.subset_append_left _ _)⟩
    rw [lowerStmt]
    show Frames.pop (lowerStmts ([] :: (lowerBranches (frame :: outer) branches).1) elseBody).1 = _
    rw [hadded, helse]
    rfl
  | whileStmt condition body elseBody =>
    obtain ⟨added, hadded, hmade⟩ := lowerExpr_made frame outer condition
    obtain ⟨addedBody, hbody, -⟩ := lowerStmts_made [] ((added ++ frame) :: outer) body
    obtain ⟨addedElse, helse, -⟩ := lowerStmts_made [] ((added ++ frame) :: outer) elseBody
    refine ⟨added, ?_, hmade.mono (List.subset_append_left _ _)⟩
    rw [lowerStmt]
    show Frames.pop (lowerStmts ([] :: Frames.pop (lowerStmts
      ([] :: (lowerExpr (frame :: outer) condition).1) body).1) elseBody).1 = _
    rw [hadded, hbody, Frames.pop_cons, helse]
    rfl
  | forStmt kind target operands step body elseBody =>
    obtain ⟨added, hadded, hmade⟩ := lowerExprs_made frame outer operands
    obtain ⟨added', hadded', hmade'⟩ := lowerExprs_made (added ++ frame) outer step
    refine ⟨added' ++ added, ?_, (hmade.append hmade').mono ?_⟩
    · rw [lowerStmt]
      dsimp only
      obtain ⟨addedBody, hbody, -⟩ := lowerStmts_made
        (ownEntries (declaredNames kind target) ++ []) ((added' ++ (added ++ frame)) :: outer) body
      rw [hadded, hadded', Frames.push, declareAll_cons, hbody]
      split
      next =>
        obtain ⟨addedElse, helse, -⟩ := lowerStmts_made
          (addedBody ++ (ownEntries (declaredNames kind target) ++ []))
          ((added' ++ (added ++ frame)) :: outer) elseBody
        rw [helse, Frames.pop_cons, List.append_assoc]
      next =>
        obtain ⟨addedElse, helse, -⟩ :=
          lowerStmts_made [] ((added' ++ (added ++ frame)) :: outer) elseBody
        rw [Frames.pop_cons, Frames.push, helse, Frames.pop_cons, List.append_assoc]
    · rw [stmtDecls]
      intro d hd
      rcases List.mem_append.mp hd with hd | hd
      · exact List.mem_append_left _ hd
      · exact List.mem_append_right _ (List.mem_append_left _ hd)
  | exprs values => exact lowerExprs_made frame outer values
theorem lowerStmts_made (frame : List (String × Local)) (outer : VarMap) (stmts : List Stmt) :
    ∃ added, (lowerStmts (frame :: outer) stmts).1 = (added ++ frame) :: outer ∧
      Made added (stmtsNames stmts) (stmtsDecls stmts) := by
  cases stmts with
  | nil => exact ⟨[], rfl, Made.nil⟩
  | cons st stmts =>
    obtain ⟨added, hadded, hmade⟩ := lowerStmt_made frame outer st
    obtain ⟨added', hadded', hmade'⟩ := lowerStmts_made (added ++ frame) outer stmts
    refine ⟨added' ++ added, ?_, hmade.append hmade'⟩
    rw [lowerStmts]
    show (lowerStmts (lowerStmt (frame :: outer) st).1 stmts).1 = _
    rw [hadded, hadded', List.append_assoc]
theorem lowerBranches_made (frame : List (String × Local)) (outer : VarMap)
    (branches : List Branch) :
    ∃ added, (lowerBranches (frame :: outer) branches).1 = (added ++ frame) :: outer ∧
      Made added (branchesNames branches) (branchesDecls branches) := by
  cases branches with
  | nil => exact ⟨[], rfl, Made.nil⟩
  | cons branch branches =>
    obtain ⟨condition, body⟩ := branch
    obtain ⟨added, hadded, hmade⟩ := lowerExpr_made frame outer condition
    obtain ⟨addedBody, hbody, -⟩ := lowerStmts_made [] ((added ++ frame) :: outer) body
    obtain ⟨added', hadded', hmade'⟩ := lowerBranches_made (added ++ frame) outer branches
    refine ⟨added' ++ added, ?_, (hmade.append hmade').mono ?_⟩
    · rw [lowerBranches]
      show (lowerBranches (lowerStmts ([] :: (lowerExpr (frame :: outer) condition).1) body).1.pop
        branches).1 = _
      rw [hadded, hbody, Frames.pop_cons, hadded', List.append_assoc]
    · rw [branchesDecls]
      intro d hd
      rcases List.mem_append.mp hd with hd | hd
      · exact List.mem_append_left _ hd
      · exact List.mem_append_right _ (List.mem_append_right _ hd)
end

end Lowered

section Tracking

/-- The resolver's scopes and the builder's frames at a point, as the names say, where these
declarations are still to come. -/
structure Tracks (table : SymbolTable) (vars : VarMap) (s : Names) (ds : List (Span × Bool)) : Prop where
  bound : ∀ n, n ∈ s.bound ↔ (table.lookup n).isSome = true
  found : ∀ n d, table.lookup n = some d →
    (n ∉ s.hijacked ↔ ∃ l, vars.lookup n = some l ∧ d ∈ l)
  apart : ∀ n d, table.lookup n = some d → ∀ b, (d, b) ∉ ds
  kept : ∀ n l, vars.lookup n = some l → ∀ d ∈ l, (d, false) ∉ ds

/-- No declaration stands twice. -/
def Distinct (ds : List (Span × Bool)) : Prop :=
  (ds.map Prod.fst).Nodup

theorem Distinct.left {ds ds' : List (Span × Bool)} (h : Distinct (ds ++ ds')) : Distinct ds := by
  rw [Distinct, List.map_append] at h
  exact (List.nodup_append.mp h).1

theorem Distinct.right {ds ds' : List (Span × Bool)} (h : Distinct (ds ++ ds')) : Distinct ds' := by
  rw [Distinct, List.map_append] at h
  exact (List.nodup_append.mp h).2.1

theorem Distinct.apart {ds ds' : List (Span × Bool)} (h : Distinct (ds ++ ds')) {d : Span} {b b' : Bool}
    (hd : (d, b) ∈ ds) : (d, b') ∉ ds' := by
  intro hd'
  rw [Distinct, List.map_append] at h
  exact (List.nodup_append.mp h).2.2 d (List.mem_map_of_mem hd) d (List.mem_map_of_mem hd') rfl

theorem Distinct.eq {ds : List (Span × Bool)} (h : Distinct ds) {d : Span} {b b' : Bool}
    (hd : (d, b) ∈ ds) (hd' : (d, b') ∈ ds) : b = b' := by
  have hpair := List.inj_on_of_nodup_map h hd hd' rfl
  exact congrArg Prod.snd hpair

variable {table : SymbolTable} {vars : VarMap} {s : Names} {ds ds' : List (Span × Bool)}

theorem Tracks.sub (h : Tracks table vars s ds) (hsub : ds' ⊆ ds) : Tracks table vars s ds' :=
  ⟨h.bound, h.found, fun n d hd b hmem => h.apart n d hd b (hsub hmem),
    fun n l hl d hd hmem => h.kept n l hl d hd (hsub hmem)⟩

theorem Tracks.pushTable (h : Tracks table vars s ds) : Tracks ([] :: table) vars s ds :=
  ⟨h.bound, h.found, h.apart, h.kept⟩

theorem Tracks.pushVars (h : Tracks table vars s ds) : Tracks table ([] :: vars) s ds :=
  ⟨h.bound, h.found, h.apart, h.kept⟩

/-- A block has a scope and a frame of its own. -/
theorem Tracks.push (h : Tracks table vars s ds) : Tracks ([] :: table) ([] :: vars) s ds :=
  h.pushTable.pushVars

/-- An occurrence agrees exactly when its name is usable. -/
theorem Tracks.agrees (h : Tracks table vars s ds) (n : String) :
    (Use.mk (table.lookup n) (vars.lookup n)).Agrees ↔ s.usable n = true := by
  have hbound := h.bound n
  rw [Names.usable, Bool.or_eq_true, Bool.not_eq_true', Bool.not_eq_true', List.contains_eq_mem,
    List.contains_eq_mem, decide_eq_false_iff_not, decide_eq_false_iff_not, hbound]
  cases hd : table.lookup n with
  | none => simp [Use.Agrees]
  | some d =>
    have hfound := h.found n d hd
    rw [hfound]
    simp [Use.Agrees]

theorem Tracks.leak {frame added : List (String × Local)} {outer : VarMap} {names : List String}
    (h : Tracks table (frame :: outer) s ds) (hn : Distinct ds) (hmade : Made added names ds')
    (hsub : ds' ⊆ ds) : Tracks table ((added ++ frame) :: outer) (s.leak names) ds := by
  have hnone (n : String) (hnames : n ∉ names) : List.lookup n added = none := by
    rw [← Option.not_isSome_iff_eq_none, lookup_isSome_iff_mem, hmade.names]
    exact hnames
  refine ⟨h.bound, fun n d hd => ?_, h.apart, fun n l hl d hd => ?_⟩
  · rw [Frames.lookup_added, Names.leak, List.mem_append, not_or]
    by_cases hnames : n ∈ names
    · refine iff_of_false (fun hnot => hnot.2 hnames) ?_
      rintro ⟨l, hl, hmem⟩
      obtain ⟨l', hl'⟩ := Option.isSome_iff_exists.mp
        (lookup_isSome_iff_mem.mpr ((hmade.names n).mpr hnames))
      rw [hl'] at hl
      obtain rfl := Option.some.inj hl
      exact h.apart n d hd true (hsub (hmade.decls n l' (mem_of_lookup hl') d hmem))
    · rw [hnone n hnames, Option.none_or, ← h.found n d hd]
      exact and_iff_left hnames
  · rw [Frames.lookup_added] at hl
    cases hadded : List.lookup n added with
    | some l' =>
      rw [hadded] at hl
      obtain rfl := Option.some.inj hl
      intro hfalse
      have htrue := hsub (hmade.decls n l' (mem_of_lookup hadded) d hd)
      exact Bool.noConfusion (hn.eq htrue hfalse)
    | none =>
      rw [hadded, Option.none_or] at hl
      exact h.kept n l hl d hd

theorem Tracks.declare {scope defs bindings : List (String × Span)} {outerT : SymbolTable}
    {frame added : List (String × Local)} {outer : VarMap}
    (h : Tracks (scope :: outerT) (frame :: outer) s (declared bindings ++ ds))
    (hn : Distinct (declared bindings ++ ds)) (hbound : Bound defs added bindings) :
    Tracks ((defs ++ scope) :: outerT) ((added ++ frame) :: outer)
      (s.declare (bindings.map Prod.fst)) ds := by
  have hdefs (n : String) : (List.lookup n defs).isSome = true ↔ n ∈ bindings.map Prod.fst := by
    rw [hbound.order]
    exact lookup_reverse_isSome
  have hnone (n : String) (hnames : n ∉ bindings.map Prod.fst) : List.lookup n added = none := by
    rw [← Option.not_isSome_iff_eq_none, lookup_isSome_iff_mem, hbound.made.names]
    exact hnames
  have hdefsNone (n : String) (hnames : n ∉ bindings.map Prod.fst) : List.lookup n defs = none := by
    rw [← Option.not_isSome_iff_eq_none, hdefs]
    exact hnames
  refine ⟨fun n => ?_, fun n d hd => ?_, fun n d hd b => ?_, fun n l hl d hd => ?_⟩
  · rw [Names.declare, List.mem_append, Frames.lookup_added, Option.isSome_or, Bool.or_eq_true, hdefs,
      h.bound n]
    exact Or.comm
  · rw [Frames.lookup_added] at hd
    rw [Names.declare, Frames.lookup_added]
    by_cases hnames : n ∈ bindings.map Prod.fst
    · obtain ⟨d', hd'⟩ := Option.isSome_iff_exists.mp ((hdefs n).mpr hnames)
      rw [hd'] at hd
      obtain rfl := Option.some.inj hd
      obtain ⟨l, hl, hmem⟩ := hbound.found n d' hd'
      refine iff_of_true ?_ ⟨l, by rw [hl]; rfl, hmem⟩
      intro hmemHijacked
      have hfilter := (List.mem_filter.mp hmemHijacked).2
      rw [Bool.not_eq_true', List.contains_eq_mem, decide_eq_false_iff_not] at hfilter
      exact hfilter hnames
    · rw [hdefsNone n hnames, Option.none_or] at hd
      rw [hnone n hnames, Option.none_or, ← h.found n d hd, List.mem_filter]
      simp only [List.contains_eq_mem, hnames, decide_false, Bool.not_false, and_true]
  · rw [Frames.lookup_added] at hd
    cases hold : List.lookup n defs with
    | some d' =>
      rw [hold] at hd
      obtain rfl := Option.some.inj hd
      have hmem := mem_of_lookup hold
      rw [hbound.order, List.mem_reverse] at hmem
      exact hn.apart (mem_declared.mpr ⟨rfl, n, hmem⟩)
    | none =>
      rw [hold, Option.none_or] at hd
      exact fun hmem => h.apart n d hd b (List.mem_append_right _ hmem)
  · rw [Frames.lookup_added] at hl
    cases hold : List.lookup n added with
    | some l' =>
      rw [hold] at hl
      obtain rfl := Option.some.inj hl
      exact hn.apart (hbound.made.decls n l' (mem_of_lookup hold) d hd)
    | none =>
      rw [hold, Option.none_or] at hl
      exact fun hmem => h.kept n l hl d hd (List.mem_append_right _ hmem)

theorem Tracks.miss {scope names : List (String × Span)} {outerT : SymbolTable}
    (h : Tracks (scope :: outerT) vars s (names.map (fun n => (n.2, false)) ++ ds))
    (hn : Distinct (names.map (fun n => (n.2, false)) ++ ds)) :
    Tracks ((names.reverse ++ scope) :: outerT) vars (s.miss (names.map Prod.fst)) ds := by
  have hspan {n : String} {d : Span} (hd : List.lookup n names.reverse = some d) :
      (d, false) ∈ names.map fun n => (n.2, false) := by
    have hmem := List.mem_reverse.mp (mem_of_lookup hd)
    exact List.mem_map.mpr ⟨(n, d), hmem, rfl⟩
  refine ⟨fun n => ?_, fun n d hd => ?_, fun n d hd b => ?_, fun n l hl d hd hmem => ?_⟩
  · rw [Names.miss, List.mem_append, Frames.lookup_added, Option.isSome_or, Bool.or_eq_true,
      lookup_reverse_isSome, h.bound n]
    exact Or.comm
  · rw [Frames.lookup_added] at hd
    rw [Names.miss, List.mem_append, not_or]
    cases hnew : List.lookup n names.reverse with
    | some d' =>
      rw [hnew] at hd
      obtain rfl := Option.some.inj hd
      have hnames : n ∈ names.map Prod.fst := lookup_reverse_isSome.mp (by rw [hnew]; rfl)
      refine iff_of_false (fun hnot => hnot.2 hnames) ?_
      rintro ⟨l, hl, hmem⟩
      exact h.kept n l hl d' hmem (List.mem_append_left _ (hspan hnew))
    | none =>
      rw [hnew, Option.none_or] at hd
      have hnames : n ∉ names.map Prod.fst := by
        rw [← lookup_reverse_isSome, hnew]
        simp
      rw [← h.found n d hd]
      exact and_iff_left hnames
  · rw [Frames.lookup_added] at hd
    cases hnew : List.lookup n names.reverse with
    | some d' =>
      rw [hnew] at hd
      obtain rfl := Option.some.inj hd
      exact hn.apart (hspan hnew)
    | none =>
      rw [hnew, Option.none_or] at hd
      exact fun hmem => h.apart n d hd b (List.mem_append_right _ hmem)
  · exact h.kept n l hl d hd (List.mem_append_right _ hmem)

end Tracking

section Agreement

variable {table : SymbolTable} {frame : List (String × Local)} {outer : VarMap} {s : Names}
  {ds : List (Span × Bool)}

theorem Tracks.afterExpr (h : Tracks table (frame :: outer) s ds) (hn : Distinct ds) {e : Expr}
    (hsub : exprDecls e ⊆ ds) :
    ∃ added, (lowerExpr (frame :: outer) (resolveExpr table e).2).1 = (added ++ frame) :: outer ∧
      Tracks table ((added ++ frame) :: outer) (s.leak (exprNames e)) ds := by
  obtain ⟨added, hadded, hmade⟩ := lowerExpr_made frame outer (resolveExpr table e).2
  rw [(resolveExpr_names table e).1, (resolveExpr_names table e).2] at hmade
  exact ⟨added, hadded, h.leak hn hmade hsub⟩

theorem Tracks.afterExprs (h : Tracks table (frame :: outer) s ds) (hn : Distinct ds)
    {es : List Expr} (hsub : exprsDecls es ⊆ ds) :
    ∃ added, (lowerExprs (frame :: outer) (resolveExprs table es).2).1 = (added ++ frame) :: outer ∧
      Tracks table ((added ++ frame) :: outer) (s.leak (exprsNames es)) ds := by
  obtain ⟨added, hadded, hmade⟩ := lowerExprs_made frame outer (resolveExprs table es).2
  rw [(resolveExprs_names table es).1, (resolveExprs_names table es).2] at hmade
  exact ⟨added, hadded, h.leak hn hmade hsub⟩

theorem Tracks.afterTarget (h : Tracks table (frame :: outer) s ds) (hn : Distinct ds)
    {target : AssignTarget} (hsub : targetDecls target ⊆ ds) :
    ∃ added, (lowerTarget (frame :: outer) (resolveAssignTarget table target).2).1 =
        (added ++ frame) :: outer ∧
      Tracks table ((added ++ frame) :: outer) (s.leak (targetNames target)) ds := by
  obtain ⟨added, hadded, hmade⟩ := lowerTarget_made frame outer (resolveAssignTarget table target).2
  rw [(resolveAssignTarget_names table target).1, (resolveAssignTarget_names table target).2] at hmade
  exact ⟨added, hadded, h.leak hn hmade hsub⟩

theorem Tracks.afterBranches (h : Tracks table (frame :: outer) s ds) (hn : Distinct ds)
    {branches : List Branch} (hsub : branchesDecls branches ⊆ ds) :
    ∃ added, (lowerBranches (frame :: outer) (resolveBranches table branches).2).1 =
        (added ++ frame) :: outer ∧
      Tracks table ((added ++ frame) :: outer) (s.leak (branchesNames branches)) ds := by
  obtain ⟨added, hadded, hmade⟩ := lowerBranches_made frame outer (resolveBranches table branches).2
  rw [(resolveBranches_names table branches).1, (resolveBranches_names table branches).2] at hmade
  exact ⟨added, hadded, h.leak hn hmade hsub⟩

/-- The step is lowered as it stands. -/
theorem Tracks.afterStep (h : Tracks table (frame :: outer) s ds) (hn : Distinct ds)
    {es : List Expr} (hsub : exprsDecls es ⊆ ds) :
    ∃ added, (lowerExprs (frame :: outer) es).1 = (added ++ frame) :: outer ∧
      Tracks table ((added ++ frame) :: outer) (s.leak (exprsNames es)) ds := by
  obtain ⟨added, hadded, hmade⟩ := lowerExprs_made frame outer es
  exact ⟨added, hadded, h.leak hn hmade hsub⟩

theorem Tracks.afterTargets {scope names : List (String × Span)}
    (h : Tracks (scope :: table) (frame :: outer) s (declared names ++ ds))
    (hn : Distinct (declared names ++ ds)) :
    Tracks ((names.reverse ++ scope) :: table) ((ownEntries names ++ frame) :: outer)
      (s.declare (names.map Prod.fst)) ds :=
  h.declare hn (bound_names names)

theorem target_bindings (kind : ForKind) (target : ForTarget) :
    target.bindings = declaredNames kind target ++ missedNames kind target := by
  cases target with
  | single name span => cases kind <;> rfl
  | tuple names =>
    cases kind with
    | enumerate => exact (List.take_append_drop 2 names).symm
    | zip => exact (List.take_append_drop 2 names).symm
    | range => exact (List.append_nil names).symm
    | plain => exact (List.append_nil names).symm

theorem Tracks.afterLoopTarget {scope : List (String × Span)} {kind : ForKind} {target : ForTarget}
    (h : Tracks (scope :: table) (frame :: outer) s (loopDecls kind target ++ ds))
    (hn : Distinct (loopDecls kind target ++ ds)) :
    Tracks ((target.bindings.reverse ++ scope) :: table)
      ((ownEntries (declaredNames kind target) ++ frame) :: outer) (loopScope s kind target) ds := by
  rw [loopDecls, List.append_assoc] at h hn
  have hmiss := (h.afterTargets hn).miss hn.right
  rw [target_bindings kind target, List.reverse_append, List.append_assoc]
  exact hmiss

theorem Tracks.afterStmt {scope : List (String × Span)} {st : Stmt}
    (h : Tracks (scope :: table) (frame :: outer) s (stmtDecls st ++ ds))
    (hn : Distinct (stmtDecls st ++ ds)) :
    ∃ added, (lowerStmt (frame :: outer) (resolveStmt (scope :: table) st).2).1 =
        (added ++ frame) :: outer ∧
      Tracks (((stmtBindings st).reverse ++ scope) :: table) ((added ++ frame) :: outer)
        (stmtScope s st) ds := by
  obtain ⟨added, hadded, hmade⟩ := lowerStmt_made frame outer (resolveStmt (scope :: table) st).2
  rw [(resolveStmt_names (scope :: table) st).1, (resolveStmt_names (scope :: table) st).2] at hmade
  have hleak := (h.leak hn hmade (List.subset_append_left _ _)).sub (List.subset_append_right _ _)
  cases st with
  | letStmt name span value =>
    have hdecls : stmtDecls (.letStmt name span value) ++ ds =
        exprDecls value ++ (declared [(name, span)] ++ ds) := by
      rw [stmtDecls, List.append_assoc]
    rw [hdecls] at h hn
    obtain ⟨added', hadded', hafter⟩ := h.afterExpr hn (List.subset_append_left _ _)
    refine ⟨[(name, [span])] ++ added', ?_, ?_⟩
    · rw [resolveStmt, lowerStmt]
      show Frames.define (lowerExpr (frame :: outer) (resolveExpr (scope :: table) value).2).1
        name [span] = _
      rw [hadded']
      rfl
    · rw [List.append_assoc]
      exact (hafter.sub (List.subset_append_right _ _)).declare hn.right (Bound.single name span)
  | multiLet names value =>
    have hdecls : stmtDecls (.multiLet names value) ++ ds =
        exprDecls value ++ (declared names ++ ds) := by
      rw [stmtDecls, List.append_assoc]
    rw [hdecls] at h hn
    obtain ⟨added', hadded', hafter⟩ := h.afterExpr hn (List.subset_append_left _ _)
    refine ⟨ownEntries names ++ added', ?_, ?_⟩
    · rw [resolveStmt, lowerStmt]
      show declareAll (lowerExpr (frame :: outer) (resolveExpr (scope :: table) value).2).1 names = _
      rw [hadded', declareAll_cons, List.append_assoc]
    · rw [List.append_assoc]
      exact (hafter.sub (List.subset_append_right _ _)).afterTargets hn.right
  | assign target value => exact ⟨added, hadded, hleak⟩
  | augAssign target value => exact ⟨added, hadded, hleak⟩
  | ifStmt branches elseBody => exact ⟨added, hadded, hleak⟩
  | whileStmt condition body elseBody => exact ⟨added, hadded, hleak⟩
  | forStmt kind target operands step body elseBody => exact ⟨added, hadded, hleak⟩
  | exprs values => exact ⟨added, hadded, hleak⟩

theorem resolveStmts_pop (table : SymbolTable) (stmts : List Stmt) :
    (resolveStmts ([] :: table) stmts).1.pop = table := by
  obtain ⟨scope, hscope⟩ := resolveStmts_table [] table stmts
  rw [hscope]
  rfl

theorem lowerStmts_pop (vars : VarMap) (stmts : List Stmt) :
    (lowerStmts ([] :: vars) stmts).1.pop = vars := by
  obtain ⟨added, hadded, -⟩ := lowerStmts_made [] vars stmts
  rw [hadded]
  rfl

mutual
/-- Where the scopes and the frames are as the names say, the occurrences of an expression agree
exactly when it is clean. -/
theorem lowerExpr_agrees (e : Expr) (table : SymbolTable) (frame : List (String × Local))
    (outer : VarMap) (s : Names) (h : Tracks table (frame :: outer) s (exprDecls e))
    (hn : Distinct (exprDecls e)) :
    (∀ u ∈ (lowerExpr (frame :: outer) (resolveExpr table e).2).2, u.Agrees) ↔
      cleanExpr s e = true := by
  cases e with
  | identifier name site =>
    rw [resolveExpr, lowerExpr, List.forall_mem_singleton, cleanExpr, Bool.or_eq_true]
    split
    next hreserved =>
      exact iff_of_true (by simp [Use.Agrees]) (Or.inl hreserved)
    next hreserved =>
      rw [h.agrees name]
      exact (or_iff_right hreserved).symm
  | node operands => exact lowerExprs_agrees operands table frame outer s h hn
  | comprehension clauses elts =>
    rw [exprDecls] at h hn
    obtain ⟨hclauses, scope, added, hscope, hadded, hafter⟩ :=
      lowerCompClauses_agrees clauses [] table frame outer s _ h.pushTable hn
    rw [resolveExpr, lowerExpr, cleanExpr, Bool.and_eq_true]
    dsimp only
    rw [List.forall_mem_append, Frames.push, hclauses, hscope, hadded]
    exact and_congr_right fun _ =>
      lowerExprs_agrees elts (scope :: table) (added ++ frame) outer _ hafter hn.right
  | matchExpr scrutinee cases =>
    rw [exprDecls] at h hn
    obtain ⟨added, hadded, hafter⟩ := h.afterExpr hn (List.subset_append_left _ _)
    rw [resolveExpr, lowerExpr, cleanExpr, Bool.and_eq_true]
    dsimp only
    rw [List.forall_mem_append, hadded, resolveExpr_table]
    exact and_congr
      (lowerExpr_agrees scrutinee table frame outer s (h.sub (List.subset_append_left _ _)) hn.left)
      (lowerCases_agrees cases table (added ++ frame) outer _
        (hafter.sub (List.subset_append_right _ _)) hn.right)
theorem lowerExprs_agrees (es : List Expr) (table : SymbolTable) (frame : List (String × Local))
    (outer : VarMap) (s : Names) (h : Tracks table (frame :: outer) s (exprsDecls es))
    (hn : Distinct (exprsDecls es)) :
    (∀ u ∈ (lowerExprs (frame :: outer) (resolveExprs table es).2).2, u.Agrees) ↔
      cleanExprs s es = true := by
  cases es with
  | nil => exact iff_of_true (by simp [resolveExprs, lowerExprs]) rfl
  | cons e es =>
    rw [exprsDecls] at h hn
    obtain ⟨added, hadded, hafter⟩ := h.afterExpr hn (List.subset_append_left _ _)
    rw [resolveExprs, lowerExprs, cleanExprs, Bool.and_eq_true]
    dsimp only
    rw [List.forall_mem_append, hadded, resolveExpr_table]
    exact and_congr
      (lowerExpr_agrees e table frame outer s (h.sub (List.subset_append_left _ _)) hn.left)
      (lowerExprs_agrees es table (added ++ frame) outer _
        (hafter.sub (List.subset_append_right _ _)) hn.right)
theorem lowerCompClauses_agrees (clauses : List CompClause) (scope : List (String × Span))
    (table : SymbolTable) (frame : List (String × Local)) (outer : VarMap) (s : Names)
    (ds : List (Span × Bool)) (h : Tracks (scope :: table) (frame :: outer) s (clausesDecls clauses ++ ds))
    (hn : Distinct (clausesDecls clauses ++ ds)) :
    ((∀ u ∈ (lowerCompClauses (frame :: outer)
        (resolveCompClauses (scope :: table) clauses).2).2, u.Agrees) ↔
      cleanClauses s clauses = true) ∧
    ∃ scope' added, (resolveCompClauses (scope :: table) clauses).1 = scope' :: table ∧
      (lowerCompClauses (frame :: outer) (resolveCompClauses (scope :: table) clauses).2).1 =
        (added ++ frame) :: outer ∧
      Tracks (scope' :: table) ((added ++ frame) :: outer) (clausesScope s clauses) ds := by
  cases clauses with
  | nil =>
    exact ⟨iff_of_true (by simp [resolveCompClauses, lowerCompClauses]) rfl, scope, [], rfl, rfl, h⟩
  | cons clause clauses =>
    obtain ⟨target, iter, condition⟩ := clause
    have hdecls : clausesDecls (.mk target iter condition :: clauses) ++ ds =
        exprDecls iter ++ (declared target.bindings ++
          (exprsDecls condition ++ (clausesDecls clauses ++ ds))) := by
      simp only [clausesDecls, List.append_assoc]
    rw [hdecls] at h hn
    obtain ⟨added, hadded, hiter⟩ := h.afterExpr hn (List.subset_append_left _ _)
    have htarget := (hiter.sub (List.subset_append_right _ _)).afterTargets hn.right
    obtain ⟨added', hadded', hcondition⟩ :=
      htarget.afterExprs hn.right.right (List.subset_append_left _ _)
    obtain ⟨hrest, scope', added'', hscope, hadded'', hafter⟩ := lowerCompClauses_agrees clauses
      (target.bindings.reverse ++ scope) table _ outer _ ds
      (hcondition.sub (List.subset_append_right _ _)) hn.right.right.right
    rw [resolveCompClauses, lowerCompClauses, cleanClauses, clausesScope]
    dsimp only
    rw [List.forall_mem_append, List.forall_mem_append, Bool.and_eq_true, Bool.and_eq_true,
      resolveExpr_table, hadded, declareAll_cons, defineAll_cons, hadded', resolveExprs_table]
    refine ⟨and_congr ?_ (and_congr ?_ hrest), scope', ?_⟩
    · exact lowerExpr_agrees iter (scope :: table) frame outer s
        (h.sub (List.subset_append_left _ _)) hn.left
    · exact lowerExprs_agrees condition _ _ outer _
        (htarget.sub (List.subset_append_left _ _)) hn.right.right.left
    · refine ⟨added'' ++ (added' ++ (ownEntries target.bindings ++ added)), hscope, ?_, ?_⟩
      · rw [hadded'']
        simp only [List.append_assoc]
      · simpa only [List.append_assoc] using hafter
theorem lowerCases_agrees (cases : List MatchCase) (table : SymbolTable)
    (frame : List (String × Local)) (outer : VarMap) (s : Names)
    (h : Tracks table (frame :: outer) s (casesDecls cases)) (hn : Distinct (casesDecls cases)) :
    (∀ u ∈ (lowerCases (frame :: outer) (resolveCases table cases).2).2, u.Agrees) ↔
      cleanCases s cases = true := by
  cases cases with
  | nil => exact iff_of_true (by simp [resolveCases, lowerCases]) rfl
  | cons case cases =>
    obtain ⟨pattern, guard, body⟩ := case
    rw [casesDecls] at h hn
    obtain ⟨added, hadded, hbound⟩ := lowerPattern_bound frame outer pattern
    have harm := (h.pushTable.declare hn hbound).pushVars
    obtain ⟨addedGuard, hguard, hafterGuard⟩ :=
      harm.afterExprs hn.right (List.subset_append_left _ _)
    obtain ⟨scope, hscope⟩ :=
      resolveStmts_table ((patternBindings pattern).reverse ++ []) table body
    obtain ⟨addedBody, hbody, -⟩ := lowerStmts_made (addedGuard ++ []) ((added ++ frame) :: outer)
      (resolveStmts (((patternBindings pattern).reverse ++ []) :: table) body).2
    have hnext := h.leak hn hbound.made (List.subset_append_left _ _)
    rw [resolveCases, lowerCases, cleanCases]
    dsimp only
    rw [List.forall_mem_append, List.forall_mem_append, Bool.and_eq_true, Bool.and_eq_true, hadded,
      Frames.push, Frames.push, resolvePattern_cons, resolveExprs_table, hguard, hscope, hbody,
      Frames.pop_cons, Frames.pop_cons]
    refine and_congr ?_ (and_congr ?_ ?_)
    · exact lowerExprs_agrees guard _ [] _ _ (harm.sub (List.subset_append_left _ _)) hn.right.left
    · exact lowerStmts_agrees body _ table _ _ _
        (hafterGuard.sub fun d hd => List.mem_append_right _ (List.mem_append_left _ hd))
        hn.right.right.left
    · exact lowerCases_agrees cases table (added ++ frame) outer _
        (hnext.sub fun d hd => List.mem_append_right _ (List.mem_append_right _
          (List.mem_append_right _ hd)))
        hn.right.right.right
theorem lowerTarget_agrees (target : AssignTarget) (table : SymbolTable)
    (frame : List (String × Local)) (outer : VarMap) (s : Names)
    (h : Tracks table (frame :: outer) s (targetDecls target)) (hn : Distinct (targetDecls target)) :
    (∀ u ∈ (lowerTarget (frame :: outer) (resolveAssignTarget table target).2).2, u.Agrees) ↔
      cleanTarget s target = true := by
  cases target with
  | identifier name site =>
    rw [resolveAssignTarget, lowerTarget, List.forall_mem_singleton, cleanTarget]
    exact h.agrees name
  | place operands => exact lowerExprs_agrees operands table frame outer s h hn
  | tuple names =>
    rw [resolveAssignTarget, lowerTarget, cleanTarget, List.all_eq_true]
    dsimp only
    rw [List.map_map, List.forall_mem_map]
    exact forall₂_congr fun n _ => h.agrees n.1
theorem lowerStmt_agrees (st : Stmt) (scope : List (String × Span)) (table : SymbolTable)
    (frame : List (String × Local)) (outer : VarMap) (s : Names)
    (h : Tracks (scope :: table) (frame :: outer) s (stmtDecls st)) (hn : Distinct (stmtDecls st)) :
    (∀ u ∈ (lowerStmt (frame :: outer) (resolveStmt (scope :: table) st).2).2, u.Agrees) ↔
      cleanStmt s st = true := by
  cases st with
  | letStmt name span value =>
    rw [stmtDecls] at h hn
    exact lowerExpr_agrees value (scope :: table) frame outer s
      (h.sub (List.subset_append_left _ _)) hn.left
  | multiLet names value =>
    rw [stmtDecls] at h hn
    exact lowerExpr_agrees value (scope :: table) frame outer s
      (h.sub (List.subset_append_left _ _)) hn.left
  | assign target value =>
    rw [stmtDecls] at h hn
    obtain ⟨added, hadded, hafter⟩ := h.afterExpr hn (List.subset_append_left _ _)
    rw [resolveStmt, lowerStmt, cleanStmt, Bool.and_eq_true]
    dsimp only
    rw [List.forall_mem_append, hadded, resolveExpr_table]
    exact and_congr
      (lowerExpr_agrees value (scope :: table) frame outer s
        (h.sub (List.subset_append_left _ _)) hn.left)
      (lowerTarget_agrees target (scope :: table) (added ++ frame) outer _
        (hafter.sub (List.subset_append_right _ _)) hn.right)
  | augAssign target value =>
    rw [stmtDecls] at h hn
    obtain ⟨added, hadded, hfirst⟩ := h.afterTarget hn (List.subset_append_right _ _)
    obtain ⟨added', hadded', hvalue⟩ := hfirst.afterExpr hn (List.subset_append_left _ _)
    rw [resolveStmt, lowerStmt, cleanStmt, Bool.and_eq_true, Bool.and_eq_true]
    dsimp only
    rw [List.forall_mem_append, List.forall_mem_append, resolveExpr_table, hadded, hadded']
    refine and_congr ?_ (and_congr ?_ ?_)
    · exact lowerTarget_agrees target (scope :: table) frame outer s
        (h.sub (List.subset_append_right _ _)) hn.right
    · exact lowerExpr_agrees value (scope :: table) _ outer _
        (hfirst.sub (List.subset_append_left _ _)) hn.left
    · exact lowerTarget_agrees target (scope :: table) _ outer _
        (hvalue.sub (List.subset_append_right _ _)) hn.right
  | ifStmt branches elseBody =>
    rw [stmtDecls] at h hn
    obtain ⟨added, hadded, hafter⟩ := h.afterBranches hn (List.subset_append_left _ _)
    rw [resolveStmt, lowerStmt, cleanStmt, Bool.and_eq_true]
    dsimp only
    rw [List.forall_mem_append, hadded, resolveBranches_table]
    exact and_congr
      (lowerBranches_agrees branches (scope :: table) frame outer s
        (h.sub (List.subset_append_left _ _)) hn.left)
      (lowerStmts_agrees elseBody [] (scope :: table) [] _ _
        (hafter.sub (List.subset_append_right _ _)).push hn.right)
  | whileStmt condition body elseBody =>
    rw [stmtDecls] at h hn
    obtain ⟨added, hadded, hafter⟩ := h.afterExpr hn (List.subset_append_left _ _)
    rw [resolveStmt, lowerStmt, cleanStmt, Bool.and_eq_true, Bool.and_eq_true]
    dsimp only
    rw [List.forall_mem_append, List.forall_mem_append, hadded, resolveExpr_table, Frames.push,
      Frames.push, resolveStmts_pop, lowerStmts_pop]
    refine and_congr ?_ (and_congr ?_ ?_)
    · exact lowerExpr_agrees condition (scope :: table) frame outer s
        (h.sub (List.subset_append_left _ _)) hn.left
    · exact lowerStmts_agrees body [] (scope :: table) [] _ _
        (hafter.sub fun d hd => List.mem_append_right _ (List.mem_append_left _ hd)).push
        hn.right.left
    · exact lowerStmts_agrees elseBody [] (scope :: table) [] _ _
        (hafter.sub fun d hd => List.mem_append_right _ (List.mem_append_right _ hd)).push
        hn.right.right
  | forStmt kind target operands step body elseBody =>
    rw [stmtDecls] at h hn
    obtain ⟨added, hadded, hoperands⟩ := h.afterExprs hn (List.subset_append_left _ _)
    obtain ⟨added', hadded', hstep⟩ := hoperands.afterStep hn
      (fun d hd => List.mem_append_right _ (List.mem_append_left _ hd))
    have hsub : loopDecls kind target ++ (stmtsDecls body ++ stmtsDecls elseBody) ⊆
        exprsDecls operands ++ (exprsDecls step ++
          (loopDecls kind target ++ (stmtsDecls body ++ stmtsDecls elseBody))) :=
      fun d hd => List.mem_append_right _ (List.mem_append_right _ hd)
    have hloop := hstep.sub hsub
    have hbody := hloop.push.afterLoopTarget hn.right.right
    obtain ⟨scope', hscope⟩ :=
      resolveStmts_table (target.bindings.reverse ++ []) (scope :: table) body
    obtain ⟨addedBody, hlowered, hmade⟩ :=
      lowerStmts_made (ownEntries (declaredNames kind target) ++ [])
        ((added' ++ (added ++ frame)) :: outer)
        (resolveStmts ((target.bindings.reverse ++ []) :: scope :: table) body).2
    rw [(resolveStmts_names _ body).1, (resolveStmts_names _ body).2] at hmade
    rw [resolveStmt, lowerStmt, cleanStmt, Bool.and_eq_true, Bool.and_eq_true]
    dsimp only
    rw [List.forall_mem_append, List.forall_mem_append, hadded, hadded', resolveExprs_table,
      Frames.push, Frames.push, Frames.push, declareAll_cons, defineAll_cons, hscope, hlowered,
      Frames.pop_cons]
    refine and_congr ?_ (and_congr ?_ ?_)
    · exact lowerExprs_agrees operands (scope :: table) frame outer s
        (h.sub (List.subset_append_left _ _)) hn.left
    · exact lowerStmts_agrees body _ (scope :: table) _ _ _
        (hbody.sub (List.subset_append_left _ _)) hn.right.right.right.left
    · have helse : stmtsDecls elseBody ⊆
          loopDecls kind target ++ (stmtsDecls body ++ stmtsDecls elseBody) :=
        fun d hd => List.mem_append_right _ (List.mem_append_right _ hd)
      rw [elseScope]
      split
      next =>
        -- the names of the loop's frame are still there
        have hframe := (bound_names (declaredNames kind target)).made.append hmade
        have hleak := hloop.push.leak hn.right.right hframe (by
          intro d hd
          rcases List.mem_append.mp hd with hd | hd
          · exact List.mem_append_left _ (List.mem_append_left _ hd)
          · exact List.mem_append_right _ (List.mem_append_left _ hd))
        rw [List.append_assoc] at hleak
        exact lowerStmts_agrees elseBody [] (scope :: table) _ _ _ (hleak.sub helse)
          hn.right.right.right.right
      next =>
        exact lowerStmts_agrees elseBody [] (scope :: table) [] _ _ (hloop.sub helse).push
          hn.right.right.right.right
  | exprs values => exact lowerExprs_agrees values (scope :: table) frame outer s h hn
theorem lowerStmts_agrees (stmts : List Stmt) (scope : List (String × Span)) (table : SymbolTable)
    (frame : List (String × Local)) (outer : VarMap) (s : Names)
    (h : Tracks (scope :: table) (frame :: outer) s (stmtsDecls stmts))
    (hn : Distinct (stmtsDecls stmts)) :
    (∀ u ∈ (lowerStmts (frame :: outer) (resolveStmts (scope :: table) stmts).2).2, u.Agrees) ↔
      cleanStmts s stmts = true := by
  cases stmts with
  | nil => exact iff_of_true (by simp [resolveStmts, lowerStmts]) rfl
  | cons st stmts =>
    rw [stmtsDecls] at h hn
    obtain ⟨added, hadded, hafter⟩ := h.afterStmt hn
    rw [resolveStmts, lowerStmts, cleanStmts, Bool.and_eq_true]
    dsimp only
    rw [List.forall_mem_append, hadded, resolveStmt_table]
    exact and_congr
      (lowerStmt_agrees st scope table frame outer s (h.sub (List.subset_append_left _ _)) hn.left)
      (lowerStmts_agrees stmts _ table (added ++ frame) outer _ hafter hn.right)
theorem lowerBranches_agrees (branches : List Branch) (table : SymbolTable)
    (frame : List (String × Local)) (outer : VarMap) (s : Names)
    (h : Tracks table (frame :: outer) s (branchesDecls branches))
    (hn : Distinct (branchesDecls branches)) :
    (∀ u ∈ (lowerBranches (frame :: outer) (resolveBranches table branches).2).2, u.Agrees) ↔
      cleanBranches s branches = true := by
  cases branches with
  | nil => exact iff_of_true (by simp [resolveBranches, lowerBranches]) rfl
  | cons branch branches =>
    obtain ⟨condition, body⟩ := branch
    rw [branchesDecls] at h hn
    obtain ⟨added, hadded, hafter⟩ := h.afterExpr hn (List.subset_append_left _ _)
    rw [resolveBranches, lowerBranches, cleanBranches]
    dsimp only
    rw [List.forall_mem_append, List.forall_mem_append, Bool.and_eq_true, Bool.and_eq_true, hadded,
      resolveExpr_table, Frames.push, Frames.push, resolveStmts_pop, lowerStmts_pop]
    refine and_congr ?_ (and_congr ?_ ?_)
    · exact lowerExpr_agrees condition table frame outer s
        (h.sub (List.subset_append_left _ _)) hn.left
    · exact lowerStmts_agrees body [] table [] _ _
        (hafter.sub fun d hd => List.mem_append_right _ (List.mem_append_left _ hd)).push
        hn.right.left
    · exact lowerBranches_agrees branches table (added ++ frame) outer _
        (hafter.sub fun d hd => List.mem_append_right _ (List.mem_append_right _ hd))
        hn.right.right
end

end Agreement

theorem tracks_empty (ds : List (Span × Bool)) : Tracks [[]] [[]] ⟨[], []⟩ ds :=
  ⟨by simp [Frames.lookup], by simp [Frames.lookup], by simp [Frames.lookup], by simp [Frames.lookup]⟩

/-- `fn f(x, y): (match y: case x: pass); return x`. -/
def shadowingArm : List Stmt :=
  [.exprs [.matchExpr (.identifier "y" none) [.mk (.identifier "x" 2) [] []]],
    .exprs [.identifier "x" none]]

end Scoping

end Olive
