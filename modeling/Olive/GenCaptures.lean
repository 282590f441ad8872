import Olive.GenBits
import Olive.GenSuspectsEnds

/-! The greatest solution of the proven sets: the loop reaches it, and what it says of an edge. -/

namespace Olive

open UntilStable RoundRobin Flags

variable {info : List SuspectInfo} {suspects : List Local} {f : MirFunction}

/-- A row has one flag for each of `k` suspects. -/
def FlagRow (k : Nat) (row : List Bool) : Prop := row.length = k

theorem flagRow_getD {k n : Nat} {out : List (List Bool)} (h : Valued (FlagRow k) n out)
    (p : Nat) : (out.getD p (List.replicate k true)).length = k := by
  rw [List.getD_eq_getElem?_getD]
  cases hp : out[p]? with
  | none => exact List.length_replicate
  | some row => exact h.values p row hp

theorem meetRows_flag {k : Nat} {row : Nat → List Bool} (hrow : ∀ p, (row p).length = k)
    (ps : List Nat) {state : List Bool} (hlen : state.length = k) :
    (ps.foldl (fun state q => state.zipWith (· && ·) (row q)) state).length = k ∧
      ∀ s, s ∈ flagFacts (ps.foldl (fun state q => state.zipWith (· && ·) (row q)) state) ↔
        s ∈ flagFacts state ∧ ∀ q ∈ ps, s ∈ flagFacts (row q) := by
  induction ps generalizing state with
  | nil => simp [hlen]
  | cons p ps ih =>
    have hmeet : (state.zipWith (· && ·) (row p)).length = k := by simp [hlen, hrow p]
    refine ⟨(ih hmeet).1, ?_⟩
    intro s
    rw [List.foldl_cons, (ih hmeet).2 s, mem_flagFacts_and, List.forall_mem_cons, and_assoc]

theorem genEntry_flag {k n : Nat} {out : List (List Bool)} (h : Valued (FlagRow k) n out)
    (bb : BasicBlockId) : (genEntry f k out bb).length = k ∧
      ∀ s, s ∈ flagFacts (genEntry f k out bb) ↔
        s < k ∧ ∀ p ∈ f.predecessors bb, s ∈ flagFacts (out.getD p (List.replicate k true)) := by
  unfold genEntry
  cases f.predecessors bb with
  | nil => simp [mem_flagFacts_replicate_true]
  | cons p ps =>
    obtain ⟨hlen, hmeet⟩ := meetRows_flag (flagRow_getD h) ps (flagRow_getD h p)
    refine ⟨hlen, ?_⟩
    intro s
    simp only [hmeet, List.forall_mem_cons]
    constructor
    · intro hs
      exact ⟨lt_of_lt_of_eq (lt_length_of_mem hs.1) (flagRow_getD h p), hs⟩
    · exact And.right

theorem genFlow_row {n : Nat} {out : List (List Bool)}
    (h : Valued (FlagRow suspects.length) n out) (bb : BasicBlockId) :
    FlagRow suspects.length (genFlow f info suspects out bb) :=
  genTransferBlock_length (genEntry_flag h bb).1

theorem genFlow_mono (hn : suspects.Nodup) {n : Nat} {out out' : List (List Bool)}
    (bb : BasicBlockId) (h : Valued (FlagRow suspects.length) n out)
    (h' : Valued (FlagRow suspects.length) n out') (hle : Below unsetFacts out out') :
    unsetFacts (genFlow f info suspects out bb) ⊆ unsetFacts (genFlow f info suspects out' bb) := by
  obtain ⟨hlen, hflag⟩ := genEntry_flag (f := f) h bb
  obtain ⟨hlen', hflag'⟩ := genEntry_flag (f := f) h' bb
  rw [unsetFacts_subset_iff ((genFlow_row h bb).trans (genFlow_row h' bb).symm)]
  refine genTransferBlock_mono hn hlen' hlen ?_
  intro s hs
  obtain ⟨hk, hall⟩ := (hflag' s).mp hs
  refine (hflag s).mpr ⟨hk, ?_⟩
  intro p hp
  have hmem := hall p hp
  by_cases hpn : p < n
  · have hget := List.getElem?_eq_getElem (lt_of_lt_of_eq hpn h.length.symm)
    have hget' := List.getElem?_eq_getElem (lt_of_lt_of_eq hpn h'.length.symm)
    rw [getD_of_some hget'] at hmem
    rw [getD_of_some hget]
    have hrows := (h.values p _ hget).trans (h'.values p _ hget').symm
    exact (unsetFacts_subset_iff hrows).mp (hle p _ _ hget hget') hmem
  · have hnone : out[p]? = none :=
      List.getElem?_eq_none (le_of_eq_of_le h.length (Nat.le_of_not_lt hpn))
    rw [List.getD_eq_getElem?_getD, hnone]
    exact mem_flagFacts_replicate_true.mpr hk

/-- Every suspect proven at the end of every block. -/
def provenTop (f : MirFunction) (suspects : List Local) : List (List Bool) :=
  List.replicate f.basicBlocks.length (List.replicate suspects.length true)

theorem provenTop_valued :
    Valued (FlagRow suspects.length) f.basicBlocks.length (provenTop f suspects) := by
  refine ⟨List.length_replicate, ?_⟩
  intro b row hrow
  rw [List.eq_of_mem_replicate (List.mem_of_getElem? hrow)]
  exact List.length_replicate

theorem genLoop_exists (info : List SuspectInfo) (hn : suspects.Nodup) :
    ∃ fuel out, solve (genFlow f info suspects) f.basicBlocks.length fuel (provenTop f suspects) =
      some out := by
  have hgrow : Growing unsetFacts (genFlow f info suspects) (provenTop f suspects) := by
    intro b row hrow s hs
    rw [List.eq_of_mem_replicate (List.mem_of_getElem? hrow)] at hs
    obtain ⟨hr, hn⟩ := Finset.mem_filter.mp hs
    rw [List.length_replicate, Finset.mem_range] at hr
    exact absurd (mem_flagFacts_replicate_true.mpr hr) hn
  have huniv : ∀ row, FlagRow suspects.length row →
      unsetFacts row ⊆ Finset.range suspects.length := by
    intro row hrow
    rw [← hrow]
    exact Finset.filter_subset _ _
  have hinj : ∀ row row', FlagRow suspects.length row → FlagRow suspects.length row' →
      unsetFacts row = unsetFacts row' → row = row' := fun row row' hr hr' he =>
    unsetFacts_injective (hr.trans hr'.symm) he
  obtain ⟨out, h⟩ := solve_exists unsetFacts (FlagRow suspects.length)
    (Finset.range suspects.length) huniv hinj (fun _ b hv => genFlow_row hv b)
    (fun _ _ b hv hv' hle => genFlow_mono hn b hv hv' hle) provenTop_valued hgrow
    (Nat.lt_succ_self _)
  exact ⟨_, out, h⟩

/-- What the loop returns, read at the entry and the end of every block. -/
structure ProvenSolution (f : MirFunction) (info : List SuspectInfo) (suspects : List Local)
    (out : List (List Bool)) : Prop where
  rows : Valued (FlagRow suspects.length) f.basicBlocks.length out
  stable : ∀ bb < f.basicBlocks.length, out[bb]? = some (genFlow f info suspects out bb)

theorem genLoop_solution {fuel : Nat} {out : List (List Bool)}
    (h : solve (genFlow f info suspects) f.basicBlocks.length fuel (provenTop f suspects) =
      some out) : ProvenSolution f info suspects out := by
  have htop : Valued (FlagRow suspects.length) f.basicBlocks.length (provenTop f suspects) :=
    provenTop_valued
  have hrows := solve_invariant (fun _ _ hs => relax_valued (fun _ b hv => genFlow_row hv b) hs)
    htop h
  refine ⟨hrows, ?_⟩
  intro bb hb
  exact solve_stable h hb (lt_of_lt_of_eq hb List.length_replicate.symm)

/-- Proven where a block is entered means proven where each block before it ends. -/
theorem ProvenSolution.edge {out : List (List Bool)} (h : ProvenSolution f info suspects out)
    {p bb : BasicBlockId} (hs : bb ∈ f.successors p) {s : Nat}
    (hp : s ∈ flagFacts (genEntry f suspects.length out bb)) :
    s ∈ flagFacts (genFlow f info suspects out p) := by
  have hmem := ((genEntry_flag h.rows bb).2 s).mp hp
  have hout := hmem.2 p (MirFunction.mem_predecessors.mpr hs)
  rwa [getD_of_some (h.stable p (MirFunction.lt_of_successors hs))] at hout

end Olive

/-! Captures and checks along the statements an instrumented function has run. -/

namespace Olive

/-- `l` holds a value after `ran`: it is a parameter, or one of the statements assigned it. -/
def Defined (f : MirFunction) (l : Local) (ran : List Statement) : Prop :=
  (1 ≤ l ∧ l ≤ f.argCount) ∨ ∃ stmt ∈ ran, stmt.dst? = some l

/-- After `ran`, `g` holds the word captured right after `l`'s most recent assignment, or at entry
when there is none: before it, only locals that `f` does not declare were assigned. -/
inductive Captured (f : MirFunction) (l g : Local) : List Statement → Prop where
  | atEntry {ran : List Statement} {capture : Statement} : 1 ≤ l → l ≤ f.argCount →
      (∀ stmt ∈ ran, ∃ h rval, stmt.kind = .assign h rval ∧ f.locals.length ≤ h) →
      capture.kind = .assign g (.genOf (.copy l)) → Captured f l g (ran ++ [capture])
  | afterDef {ran : List Statement} {stmt capture : Statement} : stmt.dst? = some l →
      capture.kind = .assign g (.genOf (.copy l)) → Captured f l g (ran ++ [stmt, capture])
  | keep {ran : List Statement} {stmt : Statement} : Captured f l g ran → stmt.dst? ≠ some l →
      stmt.dst? ≠ some g → Captured f l g (ran ++ [stmt])

/-- Each event in `ran` that may have freed `l`'s object since `l` was assigned has a check of `l`
after it, against the word captured for the value `l` held at the event. -/
def Covered (f : MirFunction) (info : List SuspectInfo) (l : Local) (ran : List Statement) : Prop :=
  ∀ pre ev post, ran = pre ++ ev :: post → mayFree info ev l = true →
    (∀ stmt ∈ ev :: post, stmt.dst? ≠ some l) →
    ∃ mid chk rest g, post = mid ++ chk :: rest ∧ chk.kind = .genCheck l g ∧
      (Defined f l pre → Captured f l g (pre ++ ev :: mid))

variable {f : MirFunction} {info : List SuspectInfo} {l g : Local}

theorem Defined.append {ran : List Statement} (h : Defined f l ran) (more : List Statement) :
    Defined f l (ran ++ more) :=
  h.imp_right fun ⟨stmt, hmem, hd⟩ => ⟨stmt, List.mem_append_left more hmem, hd⟩

theorem covered_nil : Covered f info l [] := by
  intro pre ev post he
  simp at he

/-- A list that ends in `stmt` splits at an earlier event, or at `stmt` itself. -/
theorem concat_eq_append_cons {ran pre post : List Statement} {stmt ev : Statement}
    (h : ran ++ [stmt] = pre ++ ev :: post) :
    (ev = stmt ∧ post = [] ∧ ran = pre) ∨ ∃ post', post = post' ++ [stmt] ∧
      ran = pre ++ ev :: post' := by
  rcases List.eq_nil_or_concat post with rfl | ⟨post', last, rfl⟩
  · obtain ⟨hran, hstmt⟩ := List.append_inj' h rfl
    exact .inl ⟨(List.singleton_inj.mp hstmt).symm, rfl, hran⟩
  · rw [List.concat_eq_append] at h ⊢
    have hsplit : ran ++ [stmt] = (pre ++ ev :: post') ++ [last] := by simpa using h
    obtain ⟨hran, hstmt⟩ := List.append_inj' hsplit rfl
    exact .inr ⟨post', by rw [List.singleton_inj.mp hstmt], hran⟩

theorem Covered.concat {ran : List Statement} (h : Covered f info l ran) {stmt : Statement}
    (hfree : mayFree info stmt l = false) : Covered f info l (ran ++ [stmt]) := by
  intro pre ev post he hev hdst
  rcases concat_eq_append_cons he with ⟨rfl, _, _⟩ | ⟨post', rfl, hran⟩
  · rw [hfree] at hev
    simp at hev
  · have hdst' : ∀ s ∈ ev :: post', s.dst? ≠ some l := fun s hs =>
      hdst s (List.mem_append_left [stmt] hs)
    obtain ⟨mid, chk, rest, g, hpost, hchk⟩ := h pre ev post' hran hev hdst'
    exact ⟨mid, chk, rest ++ [stmt], g, by simp [hpost], hchk⟩

theorem covered_concat_assign {ran : List Statement} {stmt : Statement}
    (hdst : stmt.dst? = some l) : Covered f info l (ran ++ [stmt]) := by
  intro pre ev post he _ hnone
  have hmem : stmt ∈ ev :: post := by
    rcases concat_eq_append_cons he with ⟨rfl, _, _⟩ | ⟨post', rfl, _⟩
    · exact List.mem_cons_self
    · exact List.mem_cons_of_mem _ (List.mem_append_right _ (List.mem_singleton_self stmt))
  exact absurd hdst (hnone stmt hmem)

theorem covered_concat_check {ran : List Statement} {stmt : Statement}
    (hchk : stmt.kind = .genCheck l g) (hcap : Defined f l ran → Captured f l g ran) :
    Covered f info l (ran ++ [stmt]) := by
  intro pre ev post he hev hdst
  rcases concat_eq_append_cons he with ⟨rfl, _, _⟩ | ⟨post', rfl, hran⟩
  · simp [mayFree, hchk] at hev
  · refine ⟨post', stmt, [], g, rfl, hchk, ?_⟩
    intro hd
    rw [← hran]
    refine hcap ?_
    rw [hran]
    exact hd.append _

theorem Covered.append {ran : List Statement} (h : Covered f info l ran) {more : List Statement}
    (hfree : ∀ stmt ∈ more, mayFree info stmt l = false) : Covered f info l (ran ++ more) := by
  induction more generalizing ran with
  | nil => simpa using h
  | cons stmt more ih =>
    rw [List.append_cons]
    exact ih (h.concat (hfree stmt List.mem_cons_self))
      fun s hs => hfree s (List.mem_cons_of_mem _ hs)

theorem Captured.append {ran : List Statement} (h : Captured f l g ran) {more : List Statement}
    (hdst : ∀ stmt ∈ more, stmt.dst? ≠ some l ∧ stmt.dst? ≠ some g) :
    Captured f l g (ran ++ more) := by
  induction more generalizing ran with
  | nil => simpa using h
  | cons stmt more ih =>
    rw [List.append_cons]
    obtain ⟨hl, hg⟩ := hdst stmt List.mem_cons_self
    exact ih (h.keep hl hg) fun s hs => hdst s (List.mem_cons_of_mem _ hs)

theorem mayFree_of_genCheck {stmt : Statement} {v w : Local} (h : stmt.kind = .genCheck v w) :
    mayFree info stmt l = false := by
  simp [mayFree, h]

theorem mayFree_of_genOf {stmt : Statement} {dst : Local} {op : Operand}
    (h : stmt.kind = .assign dst (.genOf op)) : mayFree info stmt l = false := by
  simp [mayFree, h]

/-- Every suspect that one of `stmts` reads, when they run after `ran`, is covered there. -/
def ReadsCovered (f : MirFunction) (info : List SuspectInfo) (suspects : List Local)
    (ran stmts : List Statement) : Prop :=
  ∀ (i : Nat) stmt, stmts[i]? = some stmt → ∀ l ∈ stmt.uses, l ∈ suspects →
    Covered f info l (ran ++ stmts.take i)

variable {suspects : List Local}

theorem ReadsCovered.append {ran stmts more : List Statement}
    (h : ReadsCovered f info suspects ran stmts)
    (hmore : ReadsCovered f info suspects (ran ++ stmts) more) :
    ReadsCovered f info suspects ran (stmts ++ more) := by
  intro i stmt hi l hl hs
  by_cases hlt : i < stmts.length
  · rw [List.getElem?_append_left hlt] at hi
    rw [List.take_append_of_le_length (Nat.le_of_lt hlt)]
    exact h i stmt hi l hl hs
  · have hle := Nat.le_of_not_lt hlt
    rw [List.getElem?_append_right hle] at hi
    rw [List.take_append, List.take_of_length_le hle, ← List.append_assoc]
    exact hmore (i - stmts.length) stmt hi l hl hs

theorem readsCovered_of_no_uses {ran stmts : List Statement} (h : ∀ stmt ∈ stmts, stmt.uses = []) :
    ReadsCovered f info suspects ran stmts := by
  intro i stmt hi l hl
  rw [h stmt (List.mem_of_getElem? hi)] at hl
  simp at hl

theorem readsCovered_singleton {ran : List Statement} {stmt : Statement}
    (h : ∀ l ∈ stmt.uses, l ∈ suspects → Covered f info l ran) :
    ReadsCovered f info suspects ran [stmt] := by
  intro i s hi l hl hs
  obtain ⟨rfl, rfl⟩ : i = 0 ∧ s = stmt := by
    cases i with
    | zero => exact ⟨rfl, (Option.some.inj hi).symm⟩
    | succ i => simp at hi
  simpa using h l hl hs

end Olive
