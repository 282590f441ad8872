import Mathlib.Algebra.Order.BigOperators.Group.List
import Mathlib.Algebra.Order.Ring.Nat
import Mathlib.Data.Finset.Card
import Olive.BorrowReplay
import Olive.BorrowSettled

namespace Olive

open UntilStable RoundRobin Flags FlowGraph

theorem borrowedStep_unchanged {fuel : Nat} {borrowed : Option (Finset String)} {f : MirFunction}
    (h : (borrowedStep fuel borrowed f).2 = false) :
    (borrowedStep fuel borrowed f).1 = borrowed := by
  unfold borrowedStep at h ⊢
  split
  next => simp at h
  next names =>
    split
    · rfl
    next hn =>
      simp only [hn, ↓reduceIte] at h
      split
      · simp_all
      · simp_all
      · rfl

/-- The set returned is closed under the analysis of every function. -/
theorem computeBorrowedReturns_closed {functions : List MirFunction} {fuel : Nat}
    {names : Finset String} (h : computeBorrowedReturns functions fuel = some names)
    {f : MirFunction} (hf : f ∈ functions) :
    f.name ∈ names ∨ returnsBorrow f names fuel = some false := by
  obtain ⟨result, hloop, rfl⟩ : ∃ result, untilStable (sweep (borrowedStep fuel) functions)
      (functions.length + 1) (some ∅) = some result ∧ result = some names := by
    simpa [computeBorrowedReturns, Option.join_eq_some_iff] using h
  obtain ⟨last, _, hlast⟩ := untilStable_last (P := fun _ => True) (fun _ _ => trivial) trivial hloop
  obtain ⟨hsame, hall⟩ :=
    sweep_unchanged (fun _ _ => borrowedStep_unchanged) (congrArg Prod.snd hlast)
  obtain rfl : some names = last := by rw [← hsame, hlast]
  have hstep := congrArg Prod.snd (hall f hf)
  unfold borrowedStep at hstep
  simp only at hstep
  split at hstep
  next hmem => exact .inl hmem
  next =>
    split at hstep
    · simp at hstep
    · simp at hstep
    next hr => exact .inr hr

theorem replayed_mono {f : MirFunction} {borrowed borrowed' : Finset String}
    (hb : borrowed ⊆ borrowed') (before : List BasicBlockId) :
    flagFacts (replayed f borrowed before) ⊆ flagFacts (replayed f borrowed' before) := by
  induction before using List.reverseRecOn with
  | nil => exact Finset.Subset.refl _
  | append_singleton before p ih =>
    rw [replayed_concat, replayed_concat]
    exact borrowStmts_mono hb _ (by simp) (borrowStmts_mono hb _ (by simp) ih)

theorem BorrowsReplayed.mono {f : MirFunction} {borrowed borrowed' : Finset String}
    (hb : borrowed ⊆ borrowed') (h : BorrowsReplayed f borrowed) :
    BorrowsReplayed f borrowed' := by
  obtain ⟨before, bb, hw, hret, hmark⟩ := h
  exact ⟨before, bb, hw, hret, borrowStmts_mono hb _ (by simp) (replayed_mono hb before) hmark⟩

/-- Every name in the set is that of a function some replayed walk of which returns a borrow. -/
def NamesJustified (functions : List MirFunction) (borrowed : Option (Finset String)) : Prop :=
  ∃ names, borrowed = some names ∧ ∀ name ∈ names, ∃ f ∈ functions, f.name = name ∧
    f.returnsMove = true ∧ BorrowsReplayed f names

theorem borrowedStep_settled {functions : List MirFunction} {fuel : Nat}
    {borrowed : Option (Finset String)} {f : MirFunction} (hf : f ∈ functions) (hs : Settled f)
    (hfuel : borrowBudget f ≤ fuel) (h : NamesJustified functions borrowed) :
    NamesJustified functions (borrowedStep fuel borrowed f).1 ∧
      borrowed.getD ∅ ⊆ (borrowedStep fuel borrowed f).1.getD ∅ ∧
      ((borrowedStep fuel borrowed f).2 = true →
        borrowed.getD ∅ ⊂ (borrowedStep fuel borrowed f).1.getD ∅) := by
  obtain ⟨names, rfl, hnames⟩ := h
  have hkeep : NamesJustified functions (some names) := ⟨names, rfl, hnames⟩
  by_cases hmem : f.name ∈ names
  · simpa [borrowedStep, hmem] using hkeep
  · obtain ⟨result, hr, hiff⟩ := hs.returnsBorrow_exact names hfuel
    cases result with
    | false => simpa [borrowedStep, hmem, hr] using hkeep
    | true =>
      obtain ⟨hm, hb⟩ := hiff.mp rfl
      have hins : names ⊆ insert f.name names := Finset.subset_insert _ _
      simp only [borrowedStep, hmem, hr, ↓reduceIte, Option.getD_some, forall_const]
      refine ⟨⟨_, rfl, ?_⟩, hins, Finset.ssubset_insert hmem⟩
      intro name hn
      rcases Finset.mem_insert.mp hn with rfl | hn
      · exact ⟨f, hf, rfl, hm, hb.mono hins⟩
      · obtain ⟨g, hg, he, hgm, hgb⟩ := hnames name hn
        exact ⟨g, hg, he, hgm, hgb.mono hins⟩

/-- On settled functions the whole-program loop ends, and the set it returns is exact for
replayed walks. -/
theorem computeBorrowedReturns_settled {functions : List MirFunction}
    (hs : ∀ f ∈ functions, Settled f) {fuel : Nat} (hfuel : ∀ f ∈ functions, borrowBudget f ≤ fuel) :
    ∃ names, computeBorrowedReturns functions fuel = some names ∧
      ∀ name ∈ names, ∃ f ∈ functions, f.name = name ∧ f.returnsMove = true ∧
        BorrowsReplayed f names := by
  have hstep : ∀ borrowed, ∀ f ∈ functions, NamesJustified functions borrowed → _ :=
    fun _ f hf h => borrowedStep_settled hf (hs f hf) (hfuel f hf) h
  have hround : ∀ s, NamesJustified functions s →
      NamesJustified functions (sweep (borrowedStep fuel) functions s).1 := fun s h =>
    sweep_invariant (fun s f hf h => (hstep s f hf h).1) h
  have huniv : ∀ s, NamesJustified functions s →
      s.getD ∅ ⊆ (functions.map (·.name)).toFinset := by
    rintro _ ⟨names, rfl, hn⟩ name hmem
    obtain ⟨f, hf, rfl, _⟩ := hn name hmem
    simpa using ⟨f, hf, rfl⟩
  have h0 : NamesJustified functions (some ∅) := ⟨∅, rfl, by simp⟩
  have hcard : (functions.map (·.name)).toFinset.card < functions.length + 1 :=
    Nat.lt_succ_of_le ((List.toFinset_card_le _).trans (by simp))
  obtain ⟨result, hloop⟩ := untilStable_exists_of_grows (fun s => s.getD ∅) hround huniv
    (fun s h => (sweep_grows (fun s => s.getD ∅) (fun s f hf h => (hstep s f hf h).1)
      (fun s f hf h => (hstep s f hf h).2.1) (fun s f hf h => (hstep s f hf h).2.2) h).2) h0 hcard
  obtain ⟨names, rfl, hnames⟩ := untilStable_invariant hround h0 hloop
  exact ⟨names, by simp [computeBorrowedReturns, hloop], hnames⟩

/-- One string parameter, `_0` its return slot, and the given blocks. -/
def strFunction (name : String) (extra : Nat) (blocks : List BasicBlock) : MirFunction :=
  ⟨name, List.replicate (extra + 2) ⟨.str, none, .default, false, true⟩, blocks, 1, none, none,
    ["x"], false⟩

def assignStmt (dst : Local) (rval : Rvalue) : Statement := ⟨.assign dst rval, .default⟩

def gotoBlock (stmts : List Statement) (target : BasicBlockId) : BasicBlock :=
  ⟨stmts, some ⟨.goto target, .default⟩⟩

def retBlock (stmts : List Statement) : BasicBlock := ⟨stmts, some ⟨.ret, .default⟩⟩

/-- Returns its parameter, which it overwrites after copying it to the return slot. -/
def overwritesParam : MirFunction :=
  strFunction "overwrites" 0
    [gotoBlock [assignStmt 0 (.use (.copy 1)),
      assignStmt 1 (.call (.const (.function "fresh")) [])] 1, retBlock []]

/-- Returns its parameter through a second block. -/
def passesParam : MirFunction :=
  strFunction "passes" 0 [gotoBlock [assignStmt 0 (.use (.copy 1))] 1, retBlock []]

theorem passesParam_settled : Settled passesParam := by
  have h1 : Walk passesParam.successors [0] 1 := Walk.entry.step (by decide)
  refine ⟨?_, ?_⟩
  · intro bb hb
    match bb, hb with
    | 0, _ => exact ⟨[], .entry⟩
    | 1, _ => exact ⟨[0], h1⟩
  · intro bb
    match bb with
    | 0 => decide
    | 1 => decide
    | _ + 2 => exact Finset.Subset.refl _

/-- Overwrites its parameter, then rotates three locals in a loop. -/
def rotatesLocals : MirFunction :=
  strFunction "rotates" 3
    [gotoBlock [assignStmt 1 (.call (.const (.function "fresh")) [])] 1,
      ⟨[assignStmt 4 (.use (.copy 1)), assignStmt 1 (.use (.copy 2)), assignStmt 2 (.use (.copy 3)),
        assignStmt 3 (.use (.copy 4))], some ⟨.switchInt (.copy 0) [(1, 1)] 2, .default⟩⟩,
      retBlock []]

/-- The seeded mark of the overwritten parameter rotates with the locals: the loop never ends. -/
theorem borrowLoop_rotatesLocals_diverges (fuel : Nat) :
    borrowLoop rotatesLocals ∅ fuel = none := by
  let round := sweep (relax (borrowFlow rotatesLocals ∅)) (List.range 3)
  let orbit := (List.range 4).map fun k => (fun s => (round s).1)^[k] (borrowSeed rotatesLocals)
  have hround : ∀ s ∈ orbit, (round s).2 = true ∧ (round s).1 ∈ orbit := by decide +kernel
  exact untilStable_diverges (P := (· ∈ orbit)) hround (by decide +kernel) fuel

end Olive
