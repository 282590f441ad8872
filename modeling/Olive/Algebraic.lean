import Olive.MachineFrame
import Mathlib.Data.BitVec
import Mathlib.Data.Int.Bitwise

/-! Division of a product by a divisor of its constant factor. -/

namespace Olive

open Lockstep

/-- The other factor and the constant of a product with a constant. -/
def Rvalue.scaled? : Rvalue → Option (Operand × Word)
  | .binaryOp .mul lhs (.const (.int a)) => some (lhs, a)
  | .binaryOp .mul (.const (.int a)) rhs => some (rhs, a)
  | _ => none

/-- `src / b` where `src` is `factor * a`. -/
structure ScaledDiv where
  src : Local
  factor : Operand
  a : Word
  b : Word
  deriving DecidableEq

namespace ScaledDiv

def division (d : ScaledDiv) : Rvalue := .binaryOp .div (.copy d.src) (.const (.int d.b))

def quotient (d : ScaledDiv) : Word := d.a.sdiv d.b

def product (d : ScaledDiv) : Rvalue := .binaryOp .mul d.factor (.const (.int d.quotient))

/-- `i64::MIN % -1`, which the compiler itself cannot compute. -/
def overflows (d : ScaledDiv) : Prop := d.a = BitVec.intMin 64 ∧ d.b = -1

instance (d : ScaledDiv) : Decidable d.overflows := inferInstanceAs (Decidable (_ ∧ _))

end ScaledDiv

namespace AlgebraicSimplification

def assigned? (l : Local) (stmt : Statement) : Option Rvalue :=
  match stmt.kind with
  | .assign dst rval => if dst = l then some rval else none
  | _ => none

/-- What the only assignment to `l` assigns. -/
def singleDef (f : MirFunction) (l : Local) : Option Rvalue :=
  match f.statements.filterMap (assigned? l) with
  | [rval] => some rval
  | _ => none

def scaledDiv? (f : MirFunction) : Rvalue → Option ScaledDiv
  | .binaryOp .div (.copy src) (.const (.int b)) =>
    if b = 0 then none
    else ((singleDef f src).bind Rvalue.scaled?).map fun s => ⟨src, s.1, s.2, b⟩
  | _ => none

def simplify (f : MirFunction) (rval : Rvalue) : Rvalue :=
  match scaledDiv? f rval with
  | some d => if d.a.srem d.b = 0 then d.product else rval
  | none => rval

def runStmt (f : MirFunction) (stmt : Statement) : Statement :=
  match stmt.kind with
  | .assign dst rval => { stmt with kind := .assign dst (simplify f rval) }
  | _ => stmt

def scaledDivOf? (f : MirFunction) (stmt : Statement) : Option ScaledDiv :=
  match stmt.kind with
  | .assign _ rval => scaledDiv? f rval
  | _ => none

end AlgebraicSimplification

open AlgebraicSimplification

/-- `AlgebraicSimplification::run`; `none` if it panics. -/
def algebraicSimplification (f : MirFunction) : Option MirFunction :=
  if ∃ d ∈ f.statements.filterMap (scaledDivOf? f), d.overflows then none
  else some
    { f with basicBlocks := f.basicBlocks.map fun bb =>
        { bb with statements := bb.statements.map (runStmt f) } }

section Words

theorem smulOverflow_eq_false_iff {x y : Word} :
    x.smulOverflow y = false ↔ -2 ^ 63 ≤ x.toInt * y.toInt ∧ x.toInt * y.toInt < 2 ^ 63 := by
  simp only [BitVec.smulOverflow, Bool.or_eq_false_iff, decide_eq_false_iff_not]
  omega

theorem sdiv_toInt {x y : Word} (h : ¬(x = BitVec.intMin 64 ∧ y = -1)) :
    (x.sdiv y).toInt = x.toInt.tdiv y.toInt :=
  BitVec.toInt_sdiv_of_ne_or_ne x y (Decidable.not_and_iff_not_or_not.mp h)

theorem eq_mul_sdiv {a b : Word} (hdvd : a.srem b = 0)
    (hpair : ¬(a = BitVec.intMin 64 ∧ b = -1)) : a = b * a.sdiv b := by
  have hrem : a.toInt.tmod b.toInt = 0 := by
    rw [← BitVec.toInt_srem, hdvd]
    rfl
  apply BitVec.eq_of_toInt_eq
  rw [BitVec.toInt_mul, sdiv_toInt hpair, Int.mul_tdiv_cancel_of_dvd, BitVec.toInt_bmod_cancel]
  exact Int.dvd_of_tmod_eq_zero hrem

/-- Whether a product overflows, read unsigned or signed. -/
def mulOverflows (unsigned : Bool) (x y : Word) : Bool :=
  if unsigned then x.umulOverflow y else x.smulOverflow y

theorem udiv_mul_eq_iff {b p : Word} (hb : b ≠ 0) :
    wordBinary .div true (b * p) b = .ok p ↔ b.umulOverflow p = false := by
  have hpos : 0 < b.toNat := Nat.pos_of_ne_zero fun h => hb (BitVec.eq_of_toNat_eq h)
  have hover : b.umulOverflow p = false ↔ b.toNat * p.toNat < 2 ^ 64 := by
    simp only [BitVec.umulOverflow, decide_eq_false_iff_not]
    omega
  simp only [wordBinary, if_neg hb, if_true, hover]
  constructor
  · intro h
    have hquot : (b * p).toNat / b.toNat = p.toNat := by
      rw [← BitVec.toNat_udiv, Except.ok.inj h]
    have hle : p.toNat * b.toNat ≤ (b * p).toNat := by
      rw [← hquot]
      exact Nat.div_mul_le_self _ _
    rw [Nat.mul_comm]
    exact Nat.lt_of_le_of_lt hle (b * p).isLt
  · intro h
    congr 1
    apply BitVec.eq_of_toNat_eq
    rw [BitVec.toNat_udiv, BitVec.toNat_mul, Nat.mod_eq_of_lt h, Nat.mul_div_cancel_left _ hpos]

theorem sdiv_mul_eq_iff {b p : Word} (hb : b ≠ 0) :
    wordBinary .div false (b * p) b = .ok p ↔ b.smulOverflow p = false := by
  have hb' : b.toInt ≠ 0 := by
    intro h
    exact hb (BitVec.eq_of_toInt_eq h)
  simp only [wordBinary, if_neg hb, Bool.false_eq_true, if_false]
  rw [smulOverflow_eq_false_iff]
  constructor
  · intro h
    split at h
    next => cases h
    next hpair =>
      have hquot := sdiv_toInt hpair
      rw [Except.ok.inj h] at hquot
      have hdiv := Int.mul_tdiv_add_tmod (b * p).toInt b.toInt
      rw [← hquot] at hdiv
      have hlow := BitVec.le_toInt (b * p)
      have hhigh := BitVec.toInt_lt (x := b * p)
      have hnat : ((b * p).toInt.tmod b.toInt).natAbs < b.toInt.natAbs := by
        rw [Int.natAbs_tmod]
        exact Nat.mod_lt _ (Int.natAbs_pos.mpr hb')
      have hlowb := BitVec.le_toInt b
      have hhighb := BitVec.toInt_lt (x := b)
      -- The remainder is a multiple of 2^64 smaller than the divisor.
      have hcong : (2 ^ 64 : Int) ∣ b.toInt * p.toInt - (b * p).toInt := by
        rw [BitVec.toInt_mul]
        exact Int.dvd_self_sub_bmod
      omega
  · intro ⟨hlow, hhigh⟩
    have hprod : (b * p).toInt = b.toInt * p.toInt := by
      apply BitVec.toInt_mul_of_not_smulOverflow
      rw [smulOverflow_eq_false_iff.mpr ⟨hlow, hhigh⟩]
      exact Bool.false_ne_true
    have hpair : ¬(b * p = BitVec.intMin 64 ∧ b = -1) := by
      intro ⟨hmin, hone⟩
      have hp := BitVec.toInt_lt (x := p)
      have hmin' : (b * p).toInt = -2 ^ 63 := by
        rw [hmin]
        rfl
      have hone' : b.toInt = -1 := by
        rw [hone]
        rfl
      rw [hmin', hone'] at hprod
      omega
    rw [if_neg hpair]
    congr 1
    apply BitVec.eq_of_toInt_eq
    rw [sdiv_toInt hpair, hprod, Int.mul_tdiv_cancel_left _ hb']

/-- Dividing a product by a factor gives the other one back, unless the product overflows. -/
theorem div_mul_eq_iff {unsigned : Bool} {b p : Word} (hb : b ≠ 0) :
    wordBinary .div unsigned (b * p) b = .ok p ↔ mulOverflows unsigned b p = false := by
  cases unsigned with
  | true => exact udiv_mul_eq_iff hb
  | false => exact sdiv_mul_eq_iff hb

end Words

section Runs

variable {W : Type} {rt : Runtime W} {f : MirFunction}

/-- Both operations are emitted inline, the factor still holds the word `v` that `src` was computed
from, and `b * (v * (a / b))` does not overflow. -/
structure DividesProduct (rt : Runtime W) (decls : List LocalDecl) (locals : Local → Val)
    (d : ScaledDiv) (unsigned : Bool) (v : Word) : Prop where
  division : lower decls d.division = .binary .div unsigned
  product : lower decls d.product = .binary .mul false
  factor : d.factor.moved? = none ∧ (rt.evalOperand locals d.factor).1 = .word v
  src : locals d.src = .word (v * d.a)
  fits : mulOverflows unsigned d.b (v * d.quotient) = false

/-- What `DividesProduct` says, at the divisions that are replaced. -/
def DividesProducts (rt : Runtime W) (f : MirFunction) (p : Point W) : Prop :=
  ∀ stmt d, (f.stmtsAt p.bb)[p.idx]? = some stmt → scaledDivOf? f stmt = some d →
    d.a.srem d.b = 0 → ∃ unsigned v, DividesProduct rt f.locals p.state.locals d unsigned v

theorem scaledDiv?_eq_some {rval : Rvalue} {d : ScaledDiv} (h : scaledDiv? f rval = some d) :
    rval = d.division ∧ d.b ≠ 0 := by
  unfold scaledDiv? at h
  split at h
  next src b =>
    split at h
    next => cases h
    next hb =>
      obtain ⟨s, _, rfl⟩ := Option.map_eq_some_iff.mp h
      exact ⟨rfl, hb⟩
  next => cases h

theorem DividesProduct.runAssign_eq {s : State W} {d : ScaledDiv} {unsigned : Bool} {v : Word}
    (dst : Local) (h : DividesProduct rt f.locals s.locals d unsigned v) (hb : d.b ≠ 0) (hdvd : d.a.srem d.b = 0)
    (hpair : ¬d.overflows) :
    rt.runAssign f.locals s dst d.product = rt.runAssign f.locals s dst d.division := by
  obtain ⟨hdivision, hproduct, ⟨hmoved, hv⟩, hsrc, hfits⟩ := h
  have hprod : v * d.a = d.b * (v * d.quotient) := by
    rw [← BitVec.mul_assoc, BitVec.mul_comm d.b, BitVec.mul_assoc, ScaledDiv.quotient,
      ← eq_mul_sdiv hdvd hpair]
  have hdiv : wordBinary .div unsigned (v * d.a) d.b = .ok (v * d.quotient) := by
    rw [hprod]
    exact (div_mul_eq_iff hb).mpr hfits
  have heval : rt.evalOperands s.locals d.product.inputs =
      ([.word v, .word d.quotient], s.locals) := by
    show rt.evalOperands s.locals [d.factor, .const (.int d.quotient)] = _
    simp only [Runtime.evalOperands, hv, evalOperand_of_not_moved hmoved]
    rfl
  have heval' : rt.evalOperands s.locals d.division.inputs =
      ([.word (v * d.a), .word d.b], s.locals) := by
    show rt.evalOperands s.locals [.copy d.src, .const (.int d.b)] = _
    rw [← hsrc]
    rfl
  simp only [Runtime.runAssign, heval, heval', hdivision, hproduct, Instr.eval, valBinary, hdiv]
  rfl

theorem scaledDivOf?_assign {stmt : Statement} {dst : Local} {rval : Rvalue}
    (h : stmt.kind = .assign dst rval) : scaledDivOf? f stmt = scaledDiv? f rval := by
  simp only [scaledDivOf?, h]

theorem execStmt_simplified {p : Point W} {stmt : Statement}
    (hstmt : (f.stmtsAt p.bb)[p.idx]? = some stmt) (hpairs : ∀ d, scaledDivOf? f stmt = some d →
      ¬d.overflows) (h : DividesProducts rt f p) :
    rt.execStmt f.locals p.state (runStmt f stmt) = rt.execStmt f.locals p.state stmt := by
  cases hk : stmt.kind with
  | assign dst rval =>
    simp only [runStmt, hk, Runtime.execStmt, simplify]
    cases hd : scaledDiv? f rval with
    | none => rfl
    | some d =>
      have hof : scaledDivOf? f stmt = some d := (scaledDivOf?_assign hk).trans hd
      obtain ⟨rfl, hb⟩ := scaledDiv?_eq_some hd
      by_cases hdvd : d.a.srem d.b = 0
      · obtain ⟨_, _, hv⟩ := h stmt d hstmt hof hdvd
        simp only [hdvd, if_true]
        exact hv.runAssign_eq dst hb hdvd (hpairs d hof)
      · simp only [hdvd, if_false]
  | _ => simp only [runStmt, hk]

theorem step_simplified {g : MirFunction} {p : Point W} (hg : algebraicSimplification f = some g)
    (h : DividesProducts rt f p) : rt.step g p = rt.step f p := by
  unfold algebraicSimplification at hg
  split at hg
  next => cases hg
  next hpairs =>
    obtain rfl := Option.some.inj hg
    unfold Runtime.step
    simp only [List.getElem?_map]
    cases hb : f.basicBlocks[p.bb]? with
    | none => rfl
    | some block =>
      simp only [Option.map_some, List.getElem?_map]
      cases hs : block.statements[p.idx]? with
      | none => rfl
      | some stmt =>
        have hstmt : (f.stmtsAt p.bb)[p.idx]? = some stmt := by
          rw [stmtsAt_of_block hb]
          exact hs
        have hpair : ∀ d, scaledDivOf? f stmt = some d → ¬d.overflows := by
          intro d hd hover
          exact hpairs ⟨d, List.mem_filterMap.mpr
            ⟨stmt, mem_statements (List.mem_of_getElem? hstmt), hd⟩, hover⟩
        simp only [Option.map_some, execStmt_simplified hstmt hpair h]

/-- `_0 = _1 * 8 / 4`, with `between` between the two. -/
def quartersEightfold (between : List Statement) : MirFunction :=
  plainFunction "quarters_eightfold" 1 [.int, .int, .int]
    [⟨plainStmt (.assign 2 (.binaryOp .mul (.copy 1) (.const (.int 8)))) :: between ++
      [plainStmt (.assign 0 (.binaryOp .div (.copy 2) (.const (.int 4))))], plainTerm .ret⟩]

theorem quartersEightfold_dividesProducts {p : Point Unit}
    (h : Reaches (plainRuntime.step (quartersEightfold [])) (startPoint [.word 3] emptyWorld) p) :
    DividesProducts plainRuntime (quartersEightfold []) p := by
  have hend : runs (plainRuntime.step (quartersEightfold [])) 3 (startPoint [.word 3] emptyWorld) =
      .inr (.returned (.word 6) emptyWorld []) := rfl
  obtain ⟨n, hn, hrun⟩ := h.lt_end hend
  intro stmt d hstmt hd _
  obtain rfl | rfl | rfl : n = 0 ∨ n = 1 ∨ n = 2 := by omega
  · cases hrun
    cases hstmt
    cases hd
  · cases hrun
    cases hstmt
    have hdiv : scaledDivOf? (quartersEightfold [])
        (plainStmt (.assign 0 (.binaryOp .div (.copy 2) (.const (.int 4))))) =
        some ⟨2, .copy 1, 8, 4⟩ := by decide +kernel
    obtain rfl := Option.some.inj (hdiv.symm.trans hd)
    exact ⟨false, 3, rfl, rfl, ⟨rfl, rfl⟩, rfl, by decide⟩
  · cases hrun
    cases hstmt

/-- `i64::MIN * _1 / -1`. -/
def negatesMin : MirFunction :=
  plainFunction "negates_min" 1 [.int, .int, .int]
    [⟨[plainStmt (.assign 2 (.binaryOp .mul (.copy 1) (.const (.int (BitVec.intMin 64))))),
      plainStmt (.assign 0 (.binaryOp .div (.copy 2) (.const (.int (-1)))))], plainTerm .ret⟩]

/-- The function returned by the pass, or the function itself if the pass panics. -/
def simplified (f : MirFunction) : MirFunction := (algebraicSimplification f).getD f

end Runs

end Olive
