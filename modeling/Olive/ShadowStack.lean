import Olive.Cfg
import Olive.Interleaving
import Olive.RingStack

/-! The call chain that a fault prints: the calls that `mir::shadow_stack` writes around the calls
of a program, and the ring of frames that they fill at run time. -/

namespace Olive

open Interleaving RingStack

namespace ShadowStack

/-- The name of the function called, and where. -/
structure Frame where
  name : String
  loc : String
  deriving DecidableEq, Repr

instance : Inhabited Frame := ⟨⟨"", ""⟩⟩

def shadowPush : String := "__olive_shadow_push"

def shadowPop : String := "__olive_shadow_pop"

section Instrument

variable (userFns : List String) (fileNames : Nat → Option String)

/-- `file:line:col` of a span. -/
def spanLoc (span : Span) : String :=
  match fileNames span.fileId with
  | some file => file ++ ":" ++ toString span.line ++ ":" ++ toString span.col
  | none => toString span.line ++ ":" ++ toString span.col

/-- The frame of a call to a function of the program. Calls that the compiler makes up have no span
and get none. -/
def callFrame (stmt : Statement) : Option Frame :=
  match stmt.kind with
  | .assign _ (.call (.const (.function name)) _) =>
    if name ∈ userFns ∧ stmt.span ≠ .default then some ⟨name, spanLoc fileNames stmt.span⟩ else none
  | _ => none

def allocLocal (ty : OliveType) : LocalDecl := ⟨ty, none, .default, false, true⟩

/-- The statements around a call; the four new locals are numbered from `n` on. -/
def wrapCall (n : Local) (frame : Frame) (stmt : Statement) : List Statement :=
  [⟨.assign n (.use (.const (.str frame.name))), stmt.span⟩,
    ⟨.assign (n + 1) (.use (.const (.str frame.loc))), stmt.span⟩,
    ⟨.assign (n + 2) (.call (.const (.function shadowPush)) [.copy n, .copy (n + 1)]), stmt.span⟩,
    stmt,
    ⟨.assign (n + 3) (.call (.const (.function shadowPop)) []), stmt.span⟩]

def instrumentStmt (acc : List LocalDecl × List Statement) (stmt : Statement) :
    List LocalDecl × List Statement :=
  match callFrame userFns fileNames stmt with
  | some frame =>
    (acc.1 ++ [allocLocal .str, allocLocal .str, allocLocal .null, allocLocal .null],
      acc.2 ++ wrapCall acc.1.length frame stmt)
  | none => (acc.1, acc.2 ++ [stmt])

def instrumentBlock (acc : List LocalDecl × List BasicBlock) (bb : BasicBlock) :
    List LocalDecl × List BasicBlock :=
  let done := bb.statements.foldl (instrumentStmt userFns fileNames) (acc.1, [])
  (done.1, acc.2 ++ [{ bb with statements := done.2 }])

def instrumentFunction (f : MirFunction) : MirFunction :=
  let done := f.basicBlocks.foldl (instrumentBlock userFns fileNames) (f.locals, [])
  { f with locals := done.1, basicBlocks := done.2 }

end Instrument

def instrument (functions : List MirFunction) (fileNames : Nat → Option String) :
    List MirFunction :=
  functions.map (instrumentFunction (functions.map (·.name)) fileNames)

/-- One call of a function that has not returned: where it is, and the string constants in its
locals. -/
structure Activation where
  fn : MirFunction
  bb : BasicBlockId
  idx : Nat
  strs : FxHashMap Local String

def Activation.stmt? (a : Activation) : Option Statement := (a.fn.stmtsAt a.bb)[a.idx]?

structure State where
  /-- The activations, innermost first. -/
  acts : List Activation
  ring : RingStack.Ring Frame
  /-- The frames pushed and not popped, which only the ring's slots stand for at run time. -/
  live : List (Entry Frame)

/-- The locals that a push reads its name and its location from. -/
def pushArgs (stmt : Statement) : Option (Local × Local) :=
  match stmt.kind with
  | .assign _ (.call (.const (.function name)) [.copy a, .copy b]) =>
    if name = shadowPush then some (a, b) else none
  | _ => none

def isPop (stmt : Statement) : Bool :=
  match stmt.kind with
  | .assign _ (.call (.const (.function name)) []) => name = shadowPop
  | _ => false

def isShadowCall (stmt : Statement) : Bool := (pushArgs stmt).isSome || isPop stmt

/-- The string constants after a statement. -/
def noteStrs (strs : FxHashMap Local String) (stmt : Statement) : FxHashMap Local String :=
  match stmt.kind with
  | .assign dst (.use (.const (.str s))) => strs.insert dst s
  | .assign dst _ => strs.remove dst
  | _ => strs

/-- One statement of the innermost activation. A call only goes on: what it calls comes and goes
before. -/
def perform (s : State) (a : Activation) (rest : List Activation) (stmt : Statement) : State :=
  let acts := { a with idx := a.idx + 1, strs := noteStrs a.strs stmt } :: rest
  match pushArgs stmt with
  | some (name, loc) =>
    let frame : Frame := ⟨(a.strs name).getD "", (a.strs loc).getD ""⟩
    ⟨acts, s.ring.push frame, pushEntry frame s.live⟩
  | none => if isPop stmt then ⟨acts, s.ring.pop, s.live.tail⟩ else { s with acts }

inductive Act
  | stmt
  | jump (b : BasicBlockId)
  | enter (k : Nat)
  | ret
  deriving DecidableEq, Repr

/-- What a program can do: statements other than the shadow calls enter any function, as a call or
from inside the runtime. -/
def step (prog : List MirFunction) (s : State) (act : Act) : Option State :=
  match s.acts with
  | [] => none
  | a :: rest =>
    match act, a.stmt? with
    | .stmt, some stmt => some (perform s a rest stmt)
    | .enter k, some stmt =>
      if isShadowCall stmt then none
      else prog[k]?.map fun g => { s with acts := ⟨g, 0, 0, .empty⟩ :: s.acts }
    | .jump b, none =>
      if b ∈ a.fn.successors a.bb then some { s with acts := { a with bb := b, idx := 0 } :: rest }
      else none
    | .ret, none => if a.fn.returnsAt a.bb then some { s with acts := rest } else none
    | _, _ => none

def cap : Nat := 1024

/-- The state that a function of the program starts in. -/
def start (f : MirFunction) : State :=
  ⟨[⟨f, 0, 0, .empty⟩], ⟨List.replicate cap default, 0⟩, []⟩

/-- The frames that a fault lists, innermost first. -/
def render (s : State) : List Frame := s.ring.shown

/-- How many frames it only counts. -/
def moreFrames (s : State) : Nat := s.ring.depth - cap

/-- The calls of program functions that are under way, innermost first. -/
def callChain (userFns : List String) (fileNames : Nat → Option String) (s : State) : List Frame :=
  s.acts.filterMap fun a => a.stmt?.bind (callFrame userFns fileNames)

/-- What the pass makes of one statement. -/
inductive Group
  | plain (stmt : Statement)
  | wrapped (n : Local) (frame : Frame) (stmt : Statement)

def Group.stmts : Group → List Statement
  | .plain stmt => [stmt]
  | .wrapped n frame stmt => wrapCall n frame stmt

section Groups

variable {userFns : List String} {fileNames : Nat → Option String}

/-- The frame of a group is the one of its statement, which is not itself a shadow call. -/
def Group.Ok (userFns : List String) (fileNames : Nat → Option String) : Group → Prop
  | .plain stmt => callFrame userFns fileNames stmt = none ∧ isShadowCall stmt = false
  | .wrapped _ frame stmt =>
    callFrame userFns fileNames stmt = some frame ∧ isShadowCall stmt = false

/-- The statements are those of some groups, in order. -/
def Grouped (userFns : List String) (fileNames : Nat → Option String) (groups : List Group)
    (stmts : List Statement) : Prop :=
  stmts = groups.flatMap Group.stmts ∧ ∀ g ∈ groups, g.Ok userFns fileNames

theorem Grouped.append {groups groups' : List Group} {stmts stmts' : List Statement}
    (h : Grouped userFns fileNames groups stmts) (h' : Grouped userFns fileNames groups' stmts') :
    Grouped userFns fileNames (groups ++ groups') (stmts ++ stmts') := by
  refine ⟨by rw [h.1, h'.1, List.flatMap_append], ?_⟩
  intro g hg
  rcases List.mem_append.mp hg with hg | hg
  · exact h.2 g hg
  · exact h'.2 g hg

theorem instrumentStmts_grouped {stmts : List Statement}
    (hclean : ∀ stmt ∈ stmts, isShadowCall stmt = false) (acc : List LocalDecl × List Statement)
    (hacc : ∃ groups, Grouped userFns fileNames groups acc.2) :
    ∃ groups, Grouped userFns fileNames groups
      (stmts.foldl (instrumentStmt userFns fileNames) acc).2 := by
  induction stmts generalizing acc with
  | nil => exact hacc
  | cons stmt stmts ih =>
    rw [List.forall_mem_cons] at hclean
    apply ih hclean.2
    obtain ⟨groups, hgroups⟩ := hacc
    unfold instrumentStmt
    cases hframe : callFrame userFns fileNames stmt with
    | none =>
      have hone : Grouped userFns fileNames [.plain stmt] [stmt] :=
        ⟨rfl, by simp [Group.Ok, hframe, hclean.1]⟩
      exact ⟨_, hgroups.append hone⟩
    | some frame =>
      have hone : Grouped userFns fileNames [.wrapped acc.1.length frame stmt]
          (wrapCall acc.1.length frame stmt) :=
        ⟨by simp [Group.stmts], by simp [Group.Ok, hframe, hclean.1]⟩
      exact ⟨_, hgroups.append hone⟩

theorem instrumentBlocks_grouped {bbs : List BasicBlock}
    (hclean : ∀ bb ∈ bbs, ∀ stmt ∈ bb.statements, isShadowCall stmt = false)
    (acc : List LocalDecl × List BasicBlock)
    (hacc : ∀ bb ∈ acc.2, ∃ groups, Grouped userFns fileNames groups bb.statements) :
    ∀ bb ∈ (bbs.foldl (instrumentBlock userFns fileNames) acc).2,
      ∃ groups, Grouped userFns fileNames groups bb.statements := by
  induction bbs generalizing acc with
  | nil => exact hacc
  | cons bb bbs ih =>
    rw [List.forall_mem_cons] at hclean
    apply ih hclean.2
    intro b hb
    rcases List.mem_append.mp hb with hb | hb
    · exact hacc b hb
    · obtain rfl := List.mem_singleton.mp hb
      exact instrumentStmts_grouped hclean.1 _ ⟨[], rfl, by simp⟩

theorem instrumentFunction_grouped {f : MirFunction}
    (hclean : ∀ stmt ∈ f.statements, isShadowCall stmt = false) (b : BasicBlockId) :
    ∃ groups, Grouped userFns fileNames groups
      ((instrumentFunction userFns fileNames f).stmtsAt b) := by
  have hblocks : ∀ bb ∈ (instrumentFunction userFns fileNames f).basicBlocks,
      ∃ groups, Grouped userFns fileNames groups bb.statements := by
    apply instrumentBlocks_grouped
    · intro bb hbb stmt hstmt
      exact hclean stmt (List.mem_flatMap.mpr ⟨bb, hbb, hstmt⟩)
    · simp
  unfold MirFunction.stmtsAt
  split
  next bb hbb => exact hblocks bb (List.mem_of_getElem? hbb)
  next => exact ⟨[], rfl, by simp⟩

end Groups

/-- Where an activation is in a group: the constants that it has in its locals, and the frame that
it has pushed. -/
inductive Inside (strs : FxHashMap Local String) : Group → Nat → Option Frame → Prop
  | plain {stmt} : Inside strs (.plain stmt) 0 none
  | name {n frame stmt} : Inside strs (.wrapped n frame stmt) 0 none
  | loc {n frame stmt} : strs n = some frame.name → Inside strs (.wrapped n frame stmt) 1 none
  | push {n frame stmt} : strs n = some frame.name → strs (n + 1) = some frame.loc →
      Inside strs (.wrapped n frame stmt) 2 none
  | call {n frame stmt} : Inside strs (.wrapped n frame stmt) 3 (some frame)
  | pop {n frame stmt} : Inside strs (.wrapped n frame stmt) 4 (some frame)

/-- The same in a block of groups. -/
inductive At (strs : FxHashMap Local String) : List Group → Nat → Option Frame → Prop
  | done : At strs [] 0 none
  | here {g gs off p} : Inside strs g off p → At strs (g :: gs) off p
  | later {g gs idx p} : At strs gs idx p → At strs (g :: gs) (g.stmts.length + idx) p

theorem At.start (strs : FxHashMap Local String) (groups : List Group) : At strs groups 0 none := by
  cases groups with
  | nil => exact .done
  | cons g gs =>
    cases g with
    | plain stmt => exact .here .plain
    | wrapped n frame stmt => exact .here .name

/-- What a statement does to the frame that its activation has pushed. -/
def Pushes (strs : FxHashMap Local String) (stmt : Statement) (p p' : Option Frame) : Prop :=
  match pushArgs stmt with
  | some (name, loc) => p = none ∧ p' = some ⟨(strs name).getD "", (strs loc).getD ""⟩
  | none => if isPop stmt then p ≠ none ∧ p' = none else p' = p

theorem pushes_of_not_shadow {stmt : Statement} (h : isShadowCall stmt = false)
    (strs : FxHashMap Local String) (p : Option Frame) : Pushes strs stmt p p := by
  rw [isShadowCall, Bool.or_eq_false_iff, Option.isSome_eq_false_iff,
    Option.isNone_iff_eq_none] at h
  simp [Pushes, h.1, h.2]

section Positions

variable {userFns : List String} {fileNames : Nat → Option String}
variable {strs : FxHashMap Local String} {groups : List Group} {idx : Nat} {p : Option Frame}
variable {stmt : Statement}

/-- A statement of a group goes on to the next one, or to the end of the group. -/
theorem Inside.step {g : Group} (h : Inside strs g idx p) (hok : g.Ok userFns fileNames)
    (hstmt : g.stmts[idx]? = some stmt) :
    ∃ p', Pushes strs stmt p p' ∧ (Inside (noteStrs strs stmt) g (idx + 1) p' ∨
      idx + 1 = g.stmts.length ∧ p' = none) := by
  cases h with
  | plain =>
    obtain rfl := Option.some.inj hstmt
    exact ⟨none, pushes_of_not_shadow hok.2 _ _, .inr ⟨rfl, rfl⟩⟩
  | name =>
    obtain rfl := Option.some.inj hstmt
    exact ⟨none, rfl, .inl (.loc (FxHashMap.insert_self ..))⟩
  | loc hname =>
    obtain rfl := Option.some.inj hstmt
    refine ⟨none, rfl, .inl (.push ?_ (FxHashMap.insert_self ..))⟩
    rw [← hname]
    exact FxHashMap.insert_of_ne _ _ (Nat.ne_of_lt (Nat.lt_succ_self _))
  | push hname hloc =>
    obtain rfl := Option.some.inj hstmt
    refine ⟨_, ⟨rfl, ?_⟩, .inl .call⟩
    rw [hname, hloc]
    rfl
  | call =>
    obtain rfl := Option.some.inj hstmt
    exact ⟨_, pushes_of_not_shadow hok.2 _ _, .inl .pop⟩
  | pop =>
    obtain rfl := Option.some.inj hstmt
    exact ⟨none, ⟨by simp, rfl⟩, .inr ⟨rfl, rfl⟩⟩

theorem At.step (h : At strs groups idx p) (hok : ∀ g ∈ groups, g.Ok userFns fileNames)
    (hstmt : (groups.flatMap Group.stmts)[idx]? = some stmt) :
    ∃ p', Pushes strs stmt p p' ∧ At (noteStrs strs stmt) groups (idx + 1) p' := by
  induction h with
  | done => simp at hstmt
  | @here g gs off p hin =>
    rw [List.forall_mem_cons] at hok
    have hoff : off < g.stmts.length := by cases hin <;> simp [Group.stmts, wrapCall]
    rw [List.flatMap_cons, List.getElem?_append_left hoff] at hstmt
    obtain ⟨p', hp, hnext | ⟨hend, rfl⟩⟩ := hin.step hok.1 hstmt
    · exact ⟨p', hp, .here hnext⟩
    · rw [hend]
      exact ⟨none, hp, .later (.start _ gs)⟩
  | @later g gs idx p hat ih =>
    rw [List.forall_mem_cons] at hok
    rw [List.flatMap_cons, List.getElem?_append_right (by omega), Nat.add_sub_cancel_left] at hstmt
    obtain ⟨p', hp, hnext⟩ := ih hok.2 hstmt
    exact ⟨p', hp, .later hnext⟩

/-- Between the shadow calls the frame pushed is the one of the statement. -/
theorem At.frame (h : At strs groups idx p) (hok : ∀ g ∈ groups, g.Ok userFns fileNames)
    (hshadow : ∀ stmt, (groups.flatMap Group.stmts)[idx]? = some stmt → isShadowCall stmt = false) :
    p = (groups.flatMap Group.stmts)[idx]?.bind (callFrame userFns fileNames) := by
  induction h with
  | done => rfl
  | @here g gs off p hin =>
    rw [List.forall_mem_cons] at hok
    have hoff : off < g.stmts.length := by cases hin <;> simp [Group.stmts, wrapCall]
    rw [List.flatMap_cons, List.getElem?_append_left hoff] at hshadow ⊢
    cases hin with
    | plain => exact hok.1.1.symm
    | name => rfl
    | loc => rfl
    | push => exact absurd (hshadow _ rfl) (by simp [isShadowCall, pushArgs])
    | call => exact hok.1.1.symm
    | pop => exact absurd (hshadow _ rfl) (by simp [isShadowCall, isPop])
  | @later g gs idx p hat ih =>
    rw [List.forall_mem_cons] at hok
    rw [List.flatMap_cons, List.getElem?_append_right (by omega), Nat.add_sub_cancel_left]
      at hshadow ⊢
    exact ih hok.2 hshadow

end Positions

/-- An activation of an instrumented function, with the frame that it has pushed. -/
def Placed (userFns : List String) (fileNames : Nat → Option String) (a : Activation)
    (p : Option Frame) : Prop :=
  (∃ f, (∀ stmt ∈ f.statements, isShadowCall stmt = false) ∧
    a.fn = instrumentFunction userFns fileNames f) ∧
  ∃ groups, Grouped userFns fileNames groups (a.fn.stmtsAt a.bb) ∧ At a.strs groups a.idx p

/-- The live frames are the ones that the activations have pushed, and all but the innermost
activation are at a statement of the program. -/
structure Inv (userFns : List String) (fileNames : Nat → Option String) (s : State) : Prop where
  placed : ∃ ps, List.Forall₂ (Placed userFns fileNames) s.acts ps ∧
    s.live.map (·.value) = ps.filterMap id
  waiting : ∀ a ∈ s.acts.tail, ∀ stmt, a.stmt? = some stmt → isShadowCall stmt = false
  shows : Shows s.ring s.live
  slots : s.ring.slots.length = cap

section Runs

variable {userFns : List String} {fileNames : Nat → Option String} {s s' : State}
variable {a : Activation} {rest : List Activation} {p : Option Frame}

theorem Placed.jump (h : Placed userFns fileNames a p) (b : BasicBlockId) :
    Placed userFns fileNames { a with bb := b, idx := 0 } none := by
  obtain ⟨⟨f, hclean, hfn⟩, _⟩ := h
  refine ⟨⟨f, hclean, hfn⟩, ?_⟩
  obtain ⟨groups, hgroups⟩ := @instrumentFunction_grouped userFns fileNames f hclean b
  exact ⟨groups, by rw [hfn]; exact hgroups, .start _ _⟩

theorem Placed.start {f : MirFunction} (hclean : ∀ stmt ∈ f.statements, isShadowCall stmt = false) :
    Placed userFns fileNames ⟨instrumentFunction userFns fileNames f, 0, 0, .empty⟩ none := by
  obtain ⟨groups, hgroups⟩ := @instrumentFunction_grouped userFns fileNames f hclean 0
  exact ⟨⟨f, hclean, rfl⟩, groups, hgroups, .start _ _⟩

theorem Placed.stmt {stmt : Statement} (h : Placed userFns fileNames a p)
    (hstmt : a.stmt? = some stmt) :
    ∃ p', Pushes a.strs stmt p p' ∧
      Placed userFns fileNames { a with idx := a.idx + 1, strs := noteStrs a.strs stmt } p' := by
  obtain ⟨hfn, groups, hgroups, hat⟩ := h
  rw [Activation.stmt?, hgroups.1] at hstmt
  obtain ⟨p', hp, hnext⟩ := hat.step hgroups.2 hstmt
  exact ⟨p', hp, hfn, groups, hgroups, hnext⟩

theorem Placed.frame (h : Placed userFns fileNames a p)
    (hshadow : ∀ stmt, a.stmt? = some stmt → isShadowCall stmt = false) :
    p = a.stmt?.bind (callFrame userFns fileNames) := by
  obtain ⟨_, groups, hgroups, hat⟩ := h
  rw [Activation.stmt?, hgroups.1] at hshadow ⊢
  exact hat.frame hgroups.2 hshadow

theorem Placed.end_frame (h : Placed userFns fileNames a p) (hend : a.stmt? = none) : p = none := by
  have hframe := h.frame (by simp [hend])
  rwa [hend] at hframe

theorem Inv.perform {stmt : Statement} (h : Inv userFns fileNames s) (hacts : s.acts = a :: rest)
    (hstmt : a.stmt? = some stmt) : Inv userFns fileNames (perform s a rest stmt) := by
  obtain ⟨⟨ps, hps, hlive⟩, hwait, hshows, hslots⟩ := h
  rw [hacts] at hps hwait
  obtain ⟨p, qs, ha, hrest, rfl⟩ := List.forall₂_cons_left_iff.mp hps
  obtain ⟨p', hp, ha'⟩ := ha.stmt hstmt
  have hnew : List.Forall₂ (Placed userFns fileNames)
      ({ a with idx := a.idx + 1, strs := noteStrs a.strs stmt } :: rest) (p' :: qs) :=
    .cons ha' hrest
  unfold ShadowStack.perform
  unfold Pushes at hp
  cases hargs : pushArgs stmt with
  | some args =>
    rw [hargs] at hp
    obtain ⟨rfl, rfl⟩ := hp
    refine ⟨⟨_, hnew, ?_⟩, hwait, hshows.push (by rw [hslots]; decide), ?_⟩
    · exact (pushEntry_values _ _).trans (congrArg (List.cons _) hlive)
    · rw [push_slots_length, hslots]
  | none =>
    rw [hargs] at hp
    by_cases hpop : isPop stmt = true
    · simp only [hpop, if_true] at hp ⊢
      obtain ⟨hsome, rfl⟩ := hp
      obtain ⟨frame, rfl⟩ := Option.ne_none_iff_exists'.mp hsome
      refine ⟨⟨_, hnew, ?_⟩, hwait, hshows.pop, hslots⟩
      rw [List.map_tail, hlive]
      rfl
    · simp only [hpop] at hp ⊢
      obtain rfl := hp
      exact ⟨⟨_, hnew, hlive⟩, hwait, hshows, hslots⟩

variable {fns : List MirFunction}

/-- What one step keeps, whatever it is. -/
theorem Inv.step {act : Act} (hclean : ∀ f ∈ fns, ∀ stmt ∈ f.statements, isShadowCall stmt = false)
    (h : Inv (fns.map (·.name)) fileNames s)
    (hstep : step (instrument fns fileNames) s act = some s') :
    Inv (fns.map (·.name)) fileNames s' := by
  unfold ShadowStack.step at hstep
  cases hacts : s.acts with
  | nil =>
    rw [hacts] at hstep
    cases hstep
  | cons a rest =>
    rw [hacts] at hstep
    obtain ⟨ps, hps, hlive⟩ := h.placed
    have hwait := h.waiting
    rw [hacts] at hps hwait
    obtain ⟨p, qs, ha, hrest, rfl⟩ := List.forall₂_cons_left_iff.mp hps
    dsimp only at hstep
    split at hstep
    next stmt hstmt =>
      cases hstep
      exact h.perform hacts hstmt
    next k stmt hstmt =>
      split_ifs at hstep with hshadow
      obtain ⟨g, hg, rfl⟩ := Option.map_eq_some_iff.mp hstep
      obtain ⟨f, hf, rfl⟩ := List.mem_map.mp (List.mem_of_getElem? hg)
      refine ⟨⟨none :: p :: qs, .cons (.start (hclean f hf)) hps, hlive⟩, ?_, h.shows, h.slots⟩
      intro b hb stmt' hstmt'
      rcases List.mem_cons.mp hb with rfl | hb
      · rw [hstmt] at hstmt'
        cases hstmt'
        simpa using hshadow
      · exact hwait b hb stmt' hstmt'
    next b hend =>
      split_ifs at hstep
      cases hstep
      obtain rfl := ha.end_frame hend
      exact ⟨⟨_, .cons (ha.jump b) hrest, hlive⟩, hwait, h.shows, h.slots⟩
    next hend =>
      split_ifs at hstep
      cases hstep
      obtain rfl := ha.end_frame hend
      refine ⟨⟨qs, hrest, hlive⟩, ?_, h.shows, h.slots⟩
      intro b hb
      exact hwait b (List.mem_of_mem_tail hb)
    next => cases hstep

theorem pushed_eq_frames {acts : List Activation} {ps : List (Option Frame)}
    (h : List.Forall₂ (Placed userFns fileNames) acts ps)
    (hquiet : ∀ a ∈ acts, ∀ stmt, a.stmt? = some stmt → isShadowCall stmt = false) :
    ps.filterMap id = acts.filterMap fun a => a.stmt?.bind (callFrame userFns fileNames) := by
  induction h with
  | nil => rfl
  | cons ha _ ih =>
    rw [List.forall_mem_cons] at hquiet
    rw [List.filterMap_cons, List.filterMap_cons, ih hquiet.2, ← ha.frame hquiet.1]
    rfl

/-- In whatever order a program calls, returns and goes through its blocks, the frames pushed and
not popped are the calls under way, innermost first, at each point where the program can fault. A
fault prints those of the innermost 1024 that the stack has not been 1024 deeper than since, each in
its line, and counts the rest. -/
theorem shadow_trace (fns : List MirFunction) (fileNames : Nat → Option String) {f : MirFunction}
    {s : State} (hf : f ∈ fns)
    (hclean : ∀ g ∈ fns, ∀ stmt ∈ g.statements, isShadowCall stmt = false)
    (hreach : Reachable (step (instrument fns fileNames)) (fun _ _ => True)
      (start (instrumentFunction (fns.map (·.name)) fileNames f)) s)
    (hat : ∀ a stmt, s.acts.head? = some a → a.stmt? = some stmt → isShadowCall stmt = false) :
    s.live.map (·.value) = callChain (fns.map (·.name)) fileNames s ∧
      (render s).length + moreFrames s = (callChain (fns.map (·.name)) fileNames s).length ∧
      ∀ i e, i < cap → s.live[i]? = some e → e.deepest ≤ s.live.length - 1 - i + cap →
        (render s)[i]? = (callChain (fns.map (·.name)) fileNames s)[i]? := by
  have hinv : Inv (fns.map (·.name)) fileNames s := by
    refine hreach.invariant ?_ fun _ _ _ hi _ hn => hi.step hclean hn
    exact ⟨⟨[none], .cons (.start (hclean f hf)) .nil, rfl⟩, by simp [start],
      shows_nil _, List.length_replicate⟩
  have hquiet : ∀ a ∈ s.acts, ∀ stmt, a.stmt? = some stmt → isShadowCall stmt = false := by
    intro a ha stmt hstmt
    cases hacts : s.acts with
    | nil => simp [hacts] at ha
    | cons b rest =>
      rw [hacts, List.mem_cons] at ha
      rcases ha with rfl | ha
      · exact hat a stmt (by rw [hacts, List.head?_cons]) hstmt
      · exact hinv.waiting a (by rwa [hacts]) stmt hstmt
  have hlive : s.live.map (·.value) = callChain (fns.map (·.name)) fileNames s := by
    obtain ⟨ps, hps, hlive⟩ := hinv.placed
    exact hlive.trans (pushed_eq_frames hps hquiet)
  refine ⟨hlive, ?_, ?_⟩
  · rw [← hlive, List.length_map, render, shown_length hinv.shows, moreFrames, hinv.shows.depth,
      hinv.slots]
    omega
  · intro i e hi he hdeep
    rw [← hlive, List.getElem?_map, he, render]
    rw [← hinv.slots] at hi hdeep
    exact hinv.shows.shown_eq he hi hdeep

end Runs

def helper : MirFunction :=
  ⟨"helper", [], [⟨[plainStmt (.storageLive 1)], some ⟨.ret, .default⟩⟩], 0, none, none, [], false⟩

def caller : MirFunction :=
  ⟨"main", [], [⟨[⟨.assign 0 (.call (.const (.function "helper")) []), ⟨0, 3, 5, 0, 0⟩⟩],
    some ⟨.ret, .default⟩⟩], 0, none, none, [], false⟩

/-- A fault in the function called lists the call. -/
theorem shadow_trace_in_helper : ∃ s,
    schedule (step (instrument [caller, helper] fun _ => none)) (fun _ _ => true)
      (start (instrumentFunction ["main", "helper"] (fun _ => none) caller))
      [.stmt, .stmt, .stmt, .enter 1] = some s ∧
    (render s)[0]? = some ⟨"helper", "3:5"⟩ := by
  refine ⟨_, rfl, ?_⟩
  have hrun : schedule (step (instrument [caller, helper] fun _ => none)) (fun _ _ => true)
      (start (instrumentFunction ["main", "helper"] (fun _ => none) caller))
      [.stmt, .stmt, .stmt, .enter 1] = some _ := rfl
  have h := shadow_trace [caller, helper] (fun _ => none) List.mem_cons_self (by decide)
    (reachable_of_schedule (fun _ _ _ => trivial) .start hrun) ?_
  · exact (h.2.2 0 ⟨⟨"helper", "3:5"⟩, 1⟩ (by decide) rfl (by decide)).trans rfl
  · intro a stmt ha hstmt
    cases ha
    cases hstmt
    rfl

end ShadowStack

end Olive
