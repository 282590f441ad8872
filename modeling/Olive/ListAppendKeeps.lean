import Olive.ListAppendSound

/-! The loop of `ListAppend`, and what a run looks like that it must not touch. -/

namespace Olive

namespace ListAppend

open Lockstep UntilStable

variable {W : Type} {rt : ListRuntime W} {f g : MirFunction} {s : Site}

section Loop

/-- The functions that the loop goes through. -/
inductive Stage (f : MirFunction) : MirFunction → Prop
  | start : Stage f f
  | turn {g : MirFunction} {s : Site} : Stage f g → findSite g = some (some s) → Stage f (apply g s)

/-- Each literal may wait for its concat. -/
structure AllFold (rt : ListRuntime W) (f : MirFunction) (init : HeldPoint W) : Prop where
  found : ∀ g, Stage f g → findSite g ≠ none
  clean : ∀ g s, Stage f g → findSite g = some (some s) → Clean g s
  folds : ∀ g s, Stage f g → findSite g = some (some s) → Folds rt g s init

/-- A function of the loop that does the same as the one it started with. -/
structure Kept (rt : ListRuntime W) (f : MirFunction) (init : HeldPoint W) (g : MirFunction) : Prop where
  stage : Stage f g
  same : ∀ o, Yields (apartStep rt f) init o ↔ Yields (apartStep rt g) init o

theorem Kept.apply {state : HeldState W} (h : AllFold rt f ⟨0, 0, state⟩)
    (hg : Kept rt f ⟨0, 0, state⟩ g) (hsite : findSite g = some (some s)) :
    Kept rt f ⟨0, 0, state⟩ (apply g s) := by
  have hs := found_of_findSite hsite
  have hclean := h.clean g s hg.stage hsite
  have hfolds := h.folds g s hg.stage hsite
  exact ⟨hg.stage.turn hsite, fun o => (hg.same o).trans (fold_yields hs hclean hfolds o)⟩

theorem turn_kept {state : HeldState W} (h : AllFold rt f ⟨0, 0, state⟩) (o : Option MirFunction)
    (ho : ∃ g, o = some g ∧ Kept rt f ⟨0, 0, state⟩ g) :
    ∃ g, (turn o).1 = some g ∧ Kept rt f ⟨0, 0, state⟩ g := by
  obtain ⟨g, rfl, hg⟩ := ho
  cases hsite : findSite g with
  | none => exact absurd hsite (h.found g hg.stage)
  | some found =>
    cases found with
    | none => exact ⟨g, by simp only [turn, hsite], hg⟩
    | some s => exact ⟨ListAppend.apply g s, by simp only [turn, hsite], hg.apply h hsite⟩

end Loop

section Examples

def plainLists : ListRuntime Unit := { plainRuntime with
  newList := fun _ => 4096
  newList_ne_zero := fun _ => by decide }

/-- `xs + [x]`, with some statements between the literal and the concat. -/
def adds (between : List Statement) : MirFunction :=
  plainFunction "adds" 2 [.list .int, .list .int, .int, .list .int, .int, .list .int]
    [⟨[plainStmt (.assign 3 (.aggregate .list [.copy 2]))] ++ between ++
      [plainStmt (.assign 5 (.call (.const (.function "__olive_list_concat_move")) [.move 1, .copy 3])),
       plainStmt (.assign 0 (.use (.move 5)))], plainTerm .ret⟩]

def addsSite (useIdx : Nat) : Site := ⟨0, 0, 0, useIdx, 5, 1, 3, [.copy 2]⟩

/-- `[5]` and `7`. -/
def addsStart : HeldPoint Unit := heldStart [.word 64, .word 7] (putList emptyWorld 64 [5])

variable {between : List Statement} {useIdx : Nat} {b : Bool} {p : HeldPoint Unit}

/-- In one block the literal has run between the two places, and nowhere else. -/
theorem adds_phase (hpos : 0 < useIdx)
    (h : Phase plainLists (adds between) (addsSite useIdx) addsStart b p) :
    p.bb = 0 ∧ (b = true ↔ 0 < p.idx ∧ p.idx ≤ useIdx) := by
  have hnext : ∀ {p q : HeldPoint Unit}, p.bb = 0 → apartStep plainLists (adds between) p = .inl q →
      q.bb = 0 ∧ q.idx = p.idx + 1 := by
    intro p q hp hstep
    rcases heldStep_place hstep with ⟨stmt, -, hb, hi, -⟩ | ⟨-, hsucc, -⟩
    · exact ⟨hb.trans hp, hi⟩
    · rw [hp] at hsucc
      cases hsucc
  induction h with
  | start => exact ⟨rfl, by simp [addsStart, heldStart]⟩
  | literal _ hat hstep ih =>
    obtain ⟨hb, hi⟩ := hnext ih.1 hstep
    have hidx := (Prod.mk.inj hat).2
    refine ⟨hb, ?_⟩
    rw [hi, hidx]
    exact iff_of_true rfl ⟨Nat.succ_pos _, hpos⟩
  | concat _ hat hstep ih =>
    obtain ⟨hb, hi⟩ := hnext ih.1 hstep
    have hidx := (Prod.mk.inj hat).2
    refine ⟨hb, ?_⟩
    rw [hi, hidx]
    exact iff_of_false Bool.false_ne_true fun h => Nat.not_succ_le_self _ h.2
  | @other _ p _ _ hlit hcon hstep ih =>
    obtain ⟨hb, hi⟩ := hnext ih.1 hstep
    have hdef : p.idx ≠ 0 := fun he => hlit (Prod.ext ih.1 he)
    have huse : p.idx ≠ useIdx := fun he => hcon (Prod.ext ih.1 he)
    refine ⟨hb, ih.2.trans ?_⟩
    rw [hi]
    omega

/-- The claim's proviso: no concat without a literal of its own. -/
theorem adds_fresh (hpos : 0 < useIdx)
    (h : Phase plainLists (adds between) (addsSite useIdx) addsStart false p) :
    ¬AtConcat (addsSite useIdx) p := by
  intro hat
  have hidx : p.idx = useIdx := (Prod.mk.inj hat).2
  have hlate : 0 < p.idx ∧ p.idx ≤ useIdx := ⟨hidx ▸ hpos, hidx.le⟩
  exact absurd ((adds_phase hpos h).2.mpr hlate) Bool.false_ne_true

/-- The loop folds once. -/
theorem adds_stages (hfirst : findSite (adds between) = some (some (addsSite useIdx)))
    (hlast : findSite (apply (adds between) (addsSite useIdx)) = some none) (h : Stage (adds between) g) :
    g = adds between ∨ g = apply (adds between) (addsSite useIdx) := by
  induction h with
  | start => exact .inl rfl
  | turn _ hsite ih =>
    rcases ih with rfl | rfl
    · rw [hfirst, Option.some_inj, Option.some_inj] at hsite
      rw [hsite]
      exact .inr rfl
    · rw [hlast] at hsite
      cases hsite

theorem adds_sites (hfirst : findSite (adds between) = some (some (addsSite useIdx)))
    (hlast : findSite (apply (adds between) (addsSite useIdx)) = some none) (h : Stage (adds between) g)
    (hsite : findSite g = some (some s)) : g = adds between ∧ s = addsSite useIdx := by
  rcases adds_stages hfirst hlast h with rfl | rfl
  · rw [hfirst, Option.some_inj, Option.some_inj] at hsite
    exact ⟨rfl, hsite.symm⟩
  · rw [hlast] at hsite
    cases hsite

theorem adds_stmts {bb : BasicBlockId} {idx : Nat} {stmt : Statement}
    (h : ((adds []).stmtsAt bb)[idx]? = some stmt) : ∃ dst rval, stmt.kind = .assign dst rval := by
  match bb, idx with
  | 0, 0 | 0, 1 | 0, 2 =>
    obtain rfl := Option.some.inj h
    exact ⟨_, _, rfl⟩
  | 0, _ + 3 => cases h
  | _ + 1, _ => cases h

theorem adds_clean : Clean (adds []) (addsSite 1) where
  temp_local := show 2 < 3 by decide
  dst_temp := show 5 ≠ 3 by decide
  left_temp := show 1 ≠ 3 by decide
  ops_temp op hop := by
    rw [List.mem_singleton.mp hop]
    exact show some 2 ≠ some 3 by decide
  ops_left op hop := by
    rw [List.mem_singleton.mp hop]
    exact show some 2 ≠ some 1 by decide
  ops_dst op hop := absurd hop List.not_mem_nil
  wide := rfl

/-- The concat follows the literal at once. -/
theorem adds_next (h : Phase plainLists (adds []) (addsSite 1) addsStart true p) :
    AtConcat (addsSite 1) p := by
  obtain ⟨hb, hi⟩ := adds_phase Nat.one_pos h
  obtain ⟨hpos, hle⟩ := hi.mp rfl
  exact Prod.ext hb (Nat.le_antisymm hle hpos)

theorem adds_folds : Folds plainLists (adds []) (addsSite 1) addsStart where
  fresh p h := adds_fresh Nat.one_pos h
  unmoved p h hcon := absurd (adds_next h) hcon
  unread p h hcon := absurd (adds_next h) hcon
  undropped p _ stmt hstmt hdrop := by
    obtain ⟨dst, rval, hk⟩ := adds_stmts hstmt
    rw [hk] at hdrop
    cases hdrop
  drained p _ stmt hstmt hdrop := by
    obtain ⟨dst, rval, hk⟩ := adds_stmts hstmt
    rw [hk] at hdrop
    cases hdrop
  whole hops := (nomatch hops)

theorem adds_allFold : AllFold plainLists (adds []) addsStart := by
  have hfirst : findSite (adds []) = some (some (addsSite 1)) := rfl
  have hlast : findSite (apply (adds []) (addsSite 1)) = some none := rfl
  refine ⟨fun g h => ?_, fun g s h hsite => ?_, fun g s h hsite => ?_⟩
  · rcases adds_stages hfirst hlast h with rfl | rfl
    · rw [hfirst]
      exact Option.some_ne_none _
    · rw [hlast]
      exact Option.some_ne_none _
  · obtain ⟨rfl, rfl⟩ := adds_sites hfirst hlast h hsite
    exact adds_clean
  · obtain ⟨rfl, rfl⟩ := adds_sites hfirst hlast h hsite
    exact adds_folds

end Examples

end ListAppend

end Olive
