import Olive.MachineFrame

/-! Paths from the entry that assign none of some locals, and locals assigned before they are read. -/

namespace Olive

variable {f : MirFunction} {S : Local → Prop}

/-- Some path from the entry gets to place `idx` of block `bb` and assigns no local of `S`. -/
inductive Untouched (f : MirFunction) (S : Local → Prop) : BasicBlockId → Nat → Prop
  | entry : Untouched f S 0 0
  | stmt {bb : BasicBlockId} {idx : Nat} {stmt : Statement} : Untouched f S bb idx →
      (f.stmtsAt bb)[idx]? = some stmt → (∀ l, S l → stmt.dst? ≠ some l) → Untouched f S bb (idx + 1)
  | edge {bb : BasicBlockId} {idx : Nat} {target : BasicBlockId} : Untouched f S bb idx →
      (f.stmtsAt bb)[idx]? = none → target ∈ f.successors bb → Untouched f S target 0

theorem Untouched.weaken {S' : Local → Prop} {bb : BasicBlockId} {idx : Nat}
    (h : Untouched f S bb idx) (hle : ∀ l, S' l → S l) : Untouched f S' bb idx := by
  induction h with
  | entry => exact .entry
  | stmt _ hs hdst ih => exact ih.stmt hs fun l hl => hdst l (hle l hl)
  | edge _ hs ht ih => exact ih.edge hs ht

theorem Untouched.block {bb : BasicBlockId} {idx i : Nat} {stmt : Statement} {l : Local}
    (h : Untouched f S bb idx) (hi : i < idx) (hs : (f.stmtsAt bb)[i]? = some stmt) (hl : S l) :
    stmt.dst? ≠ some l := by
  induction h with
  | entry => cases hi
  | edge _ _ _ _ => cases hi
  | stmt _ hs' hdst ih =>
    rcases Nat.lt_succ_iff_lt_or_eq.mp hi with hi | rfl
    · exact ih hi hs
    · rw [hs] at hs'
      cases hs'
      exact hdst l hl

/-- Some path gets to the place. -/
def Visited (f : MirFunction) : BasicBlockId → Nat → Prop := Untouched f fun _ => False

/-- The operands evaluated at a place. -/
def MirFunction.operandsAt (f : MirFunction) (bb : BasicBlockId) (idx : Nat) : List Operand :=
  match (f.stmtsAt bb)[idx]? with
  | some stmt => stmt.kind.evaluated
  | none =>
    match f.terminatorAt bb with
    | some ⟨.switchInt discr _ _, _⟩ => [discr]
    | _ => []

def MirFunction.isParam (f : MirFunction) (l : Local) : Prop := 1 ≤ l ∧ l ≤ f.argCount

/-- Each local is a parameter or assigned on every path before an operand reads it. -/
def AssignedBeforeRead (f : MirFunction) : Prop :=
  ∀ bb idx op l, op ∈ f.operandsAt bb idx → op.local? = some l →
    f.isParam l ∨ ¬Untouched f (· = l) bb idx

section Runs

variable {W : Type} {rt : Runtime W}

/-- Where a step goes. -/
theorem step_place {p q : Point W} (h : rt.step f p = .inl q) :
    (∃ stmt, (f.stmtsAt p.bb)[p.idx]? = some stmt ∧ q.bb = p.bb ∧ q.idx = p.idx + 1 ∧
        rt.execStmt f.locals p.state stmt = .ok q.state) ∨
      (f.stmtsAt p.bb)[p.idx]? = none ∧ q.bb ∈ f.successors p.bb ∧ q.idx = 0 ∧
        ∃ term, f.terminatorAt p.bb = some term ∧
          rt.execTerm f.locals p.state (some term) = .inl (q.bb, q.state) := by
  obtain ⟨bb, idx, s⟩ := p
  cases hb : f.basicBlocks[bb]? with
  | none =>
    rw [step_no_block hb] at h
    cases h
  | some block =>
    have hstmts : f.stmtsAt bb = block.statements := by simp only [MirFunction.stmtsAt, hb]
    have hterm : f.terminatorAt bb = block.terminator := by
      simp only [MirFunction.terminatorAt, hb, Option.bind_some]
    simp only [hstmts]
    cases hs : block.statements[idx]? with
    | some stmt =>
      cases hex : rt.execStmt f.locals s stmt with
      | error e =>
        rw [step_error hb hs hex] at h
        cases h
      | ok s' =>
        rw [step_ok hb hs hex] at h
        cases h
        exact .inl ⟨stmt, rfl, rfl, rfl, hex⟩
    | none =>
      cases hex : rt.execTerm f.locals s block.terminator with
      | inr o =>
        rw [step_ends hb hs hex] at h
        cases h
      | inl r =>
        obtain ⟨target, s'⟩ := r
        rw [step_goes hb hs hex] at h
        cases h
        cases ht : block.terminator with
        | none =>
          rw [ht] at hex
          cases hex
        | some term =>
          rw [ht] at hex
          refine .inr ⟨rfl, ?_, rfl, term, hterm.trans ht, hex⟩
          simp only [MirFunction.successors, hterm, ht]
          exact execTerm_target hex

theorem visited_step {p q : Point W} (h : Visited f p.bb p.idx) (hstep : rt.step f p = .inl q) :
    Visited f q.bb q.idx := by
  rcases step_place hstep with ⟨stmt, hs, hbb, hidx, -⟩ | ⟨hs, ht, hidx, -⟩
  · rw [hbb, hidx]
    exact h.stmt hs fun _ hl => hl.elim
  · rw [hidx]
    exact h.edge hs ht

end Runs

end Olive
