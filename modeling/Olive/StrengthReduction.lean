import Olive.Peephole
import Olive.PowerOfTwo

/-! Strength reduction: products, quotients and remainders by powers of two become shifts and
masks. -/

namespace Olive

open Lockstep ScalarCode

namespace StrengthReduction

/-- An operation by a constant power of two. -/
structure Scaling where
  op : BinOp
  x : Operand
  c : Word

section Pass

variable (decls : List LocalDecl)

def isPyobjOp : Operand → Bool
  | .copy l | .move l => (tyOf decls l).isPyValue
  | .const _ => false

/-- The types that the pass takes for unsigned. -/
def isUnsignedOp : Operand → Bool
  | .copy l | .move l =>
    match tyOf decls l with
    | .u8 | .u16 | .u32 | .u64 | .usize => true
    | _ => false
  | .const _ => false

/-- `op` on `x`, where `y` is a power of two above one. -/
def byConstant (op : BinOp) (x y : Operand) : Option Scaling :=
  match y with
  | .const (.int c) =>
    if 2 ≤ c.toInt ∧ c.toNat.isPowerOfTwo ∧ isPyobjOp decls x = false then some ⟨op, x, c⟩ else none
  | _ => none

def scaling? : Rvalue → Option Scaling
  | .binaryOp .mul l r => (byConstant decls .mul l r).or (byConstant decls .mul r l)
  | .binaryOp .div l r => if isUnsignedOp decls l then byConstant decls .div l r else none
  | .binaryOp .mod l r => if isUnsignedOp decls l then byConstant decls .mod l r else none
  | _ => none

/-- What the pass puts for it. -/
def Scaling.reduced (d : Scaling) : Rvalue :=
  match d.op with
  | .mul => .binaryOp .shl d.x (.const (.int d.c.ctz))
  | .div => .binaryOp .shr d.x (.const (.int d.c.ctz))
  | _ => .binaryOp .and d.x (.const (.int (d.c - 1)))

def reduce (rval : Rvalue) : Rvalue :=
  (scaling? decls rval).elim rval Scaling.reduced

def runStmt (stmt : Statement) : Statement :=
  match stmt.kind with
  | .assign dst rval => { stmt with kind := .assign dst (reduce decls rval) }
  | _ => stmt

end Pass

end StrengthReduction

open StrengthReduction

/-- `StrengthReduction::run`. -/
def strengthReduction (f : MirFunction) : MirFunction :=
  { f with basicBlocks := f.basicBlocks.map fun bb =>
      { bb with statements := bb.statements.map (StrengthReduction.runStmt f.locals) } }

namespace StrengthReduction

variable {decls : List LocalDecl} {d : Scaling} {rval : Rvalue} {op : BinOp} {x y : Operand}

/-- A word above one that is a power of two. -/
structure IsScale (c : Word) : Prop where
  two_le : 2 ≤ c.toInt
  power : c.toNat.isPowerOfTwo

theorem byConstant_eq_some (h : byConstant decls op x y = some d) :
    d.op = op ∧ d.x = x ∧ y = .const (.int d.c) ∧ IsScale d.c := by
  unfold byConstant at h
  split at h
  next c =>
    obtain ⟨⟨htwo, hpower, _⟩, hd⟩ := Option.ite_none_right_eq_some.mp h
    cases Option.some.inj hd
    exact ⟨rfl, rfl, rfl, htwo, hpower⟩
  next => cases h

/-- The operation that is reduced, a product with the constant on either side. -/
theorem scaling?_eq_some (h : scaling? decls rval = some d) : IsScale d.c ∧
    ((d.op = .mul ∧ (rval = .binaryOp .mul d.x (.const (.int d.c)) ∨
        rval = .binaryOp .mul (.const (.int d.c)) d.x)) ∨
      (d.op = .div ∧ rval = .binaryOp .div d.x (.const (.int d.c))) ∨
      (d.op = .mod ∧ rval = .binaryOp .mod d.x (.const (.int d.c)))) := by
  unfold scaling? at h
  split at h
  next l r =>
    rcases Option.or_eq_some_iff.mp h with h | ⟨_, h⟩
    · obtain ⟨hop, rfl, rfl, hscale⟩ := byConstant_eq_some h
      exact ⟨hscale, .inl ⟨hop, .inl rfl⟩⟩
    · obtain ⟨hop, rfl, rfl, hscale⟩ := byConstant_eq_some h
      exact ⟨hscale, .inl ⟨hop, .inr rfl⟩⟩
  next l r =>
    obtain ⟨_, h⟩ := Option.ite_none_right_eq_some.mp h
    obtain ⟨hop, rfl, rfl, hscale⟩ := byConstant_eq_some h
    exact ⟨hscale, .inr (.inl ⟨hop, rfl⟩)⟩
  next l r =>
    obtain ⟨_, h⟩ := Option.ite_none_right_eq_some.mp h
    obtain ⟨hop, rfl, rfl, hscale⟩ := byConstant_eq_some h
    exact ⟨hscale, .inr (.inr ⟨hop, rfl⟩)⟩
  next => cases h

section Words

variable {c v : Word}

/-- A scale is 2^k for a `k` of at most 62. -/
theorem IsScale.twoPow (h : IsScale c) :
    c = BitVec.twoPow 64 c.ctz.toNat ∧ c.ctz.toNat + 1 < 64 ∧ c.toInt = 2 ^ c.ctz.toNat := by
  obtain ⟨heq, hlt⟩ := PowerOfTwo.eq_twoPow h.power
  have hk : c.ctz.toNat + 1 < 64 := by
    by_contra hlast
    have hint := h.two_le
    rw [heq, BitVec.toInt_twoPow, if_neg (by omega), if_pos (by omega)] at hint
    have hpos : (0 : Int) ≤ ((2 ^ c.ctz.toNat : Nat) : Int) := Int.natCast_nonneg _
    omega
  refine ⟨heq, hk, ?_⟩
  conv_lhs => rw [heq]
  exact PowerOfTwo.toInt_twoPow hk

theorem IsScale.ne_zero (h : IsScale c) : c ≠ 0 := by
  rintro rfl
  have := h.two_le
  simp at this

theorem IsScale.ne_neg_one (h : IsScale c) : c ≠ -1 := by
  rintro rfl
  have := h.two_le
  simp at this

theorem mul_scale (h : IsScale c) : v * c = v <<< c.ctz.toNat := by
  conv_lhs => rw [h.twoPow.1]
  exact BitVec.mul_twoPow_eq_shiftLeft v _

theorem udiv_scale (h : IsScale c) : v / c = v >>> c.ctz.toNat := by
  have hlt := h.twoPow.2.1
  conv_lhs => rw [h.twoPow.1]
  exact BitVec.udiv_twoPow_eq_of_lt (by omega)

theorem umod_scale (h : IsScale c) : v % c = v &&& (c - 1) := by
  have hlt := h.twoPow.2.1
  have hmod := PowerOfTwo.umod_twoPow (x := v) (k := c.ctz.toNat) (by omega)
  rwa [← h.twoPow.1] at hmod

theorem sdiv_scale_iff (h : IsScale c) :
    v.sdiv c = v.sshiftRight c.ctz.toNat ↔ 0 ≤ v.toInt ∨ c.toInt ∣ v.toInt := by
  have hdiv := PowerOfTwo.sdiv_twoPow_iff (x := v) h.twoPow.2.1
  rwa [← h.twoPow.1, ← h.twoPow.2.2] at hdiv

theorem srem_scale_iff (h : IsScale c) :
    v.srem c = v &&& (c - 1) ↔ 0 ≤ v.toInt ∨ c.toInt ∣ v.toInt := by
  have hrem := PowerOfTwo.srem_twoPow_iff (x := v) h.twoPow.2.1
  rwa [← h.twoPow.1, ← h.twoPow.2.2] at hrem

end Words

section Steps

variable {W : Type} {rt : ScalarRuntime W} {checked : Bool} {locals : Local → Word}

/-- Whether an operand is an integer. -/
def isInteger (decls : List LocalDecl) : Operand → Bool
  | .copy l | .move l => ScalarCode.isIntLike (tyOf decls l)
  | .const (.int _) => true
  | .const _ => false

def wordOf (locals : Local → Word) : Operand → Word
  | .copy l | .move l => locals l
  | .const (.int v) => v
  | .const _ => 0

/-- The operand is as wide as the constant, the product does not overflow where that is checked, and
what is divided is unsigned to codegen as well, or not rounded below zero. -/
structure Exact (checked : Bool) (decls : List LocalDecl) (locals : Local → Word) (d : Scaling) :
    Prop where
  wide : operandWidth decls d.x = 64
  product : d.op = .mul → checked = true →
    (if (d.x.class decls).isU64 then (wordOf locals d.x).umulOverflow d.c
      else (wordOf locals d.x).smulOverflow d.c) = false
  quotient : d.op ≠ .mul → (d.x.class decls).isU64 = true ∨ 0 ≤ (wordOf locals d.x).toInt ∨
    d.c.toInt ∣ (wordOf locals d.x).toInt

theorem evalOperand_word (h : isInteger decls x = true)
    (hwide : operandWidth decls x = 64) :
    (evalOperand rt decls locals x).1 = .int 64 (wordOf locals x) := by
  have hread (l : Local) (hl : width (tyOf decls l) = 64) :
      readLocal decls locals l = .int 64 (locals l) := by
    unfold readLocal
    rw [hl, BitVec.setWidth_eq]
  cases x with
  | copy l => exact hread l hwide
  | move l => exact hread l hwide
  | const c =>
    cases c with
    | int v => rfl
    | _ => cases h

theorem evalOperand_narrow (h : isInteger decls x = true) :
    ∃ v, (evalOperand rt decls locals x).1 =
      .int (operandWidth decls x) v := by
  cases x with
  | const c =>
    cases c with
    | int v => exact ⟨v, rfl⟩
    | _ => cases h
  | _ => exact ⟨_, rfl⟩

/-- The operators that are reduced and the ones they are reduced to. -/
def isInline : BinOp → Bool
  | .mul | .div | .mod | .shl | .shr | .and => true
  | _ => false

theorem callsRuntime_inline {l r : Operand} (h : isInline op = true) :
    callsRuntime op l r = false := by
  cases op <;> first | rfl | cases h

theorem evalRvalue_right {c : Word} {s : ScalarState W} (h : isInline op = true) :
    evalRvalue rt checked decls s (.binaryOp op x (.const (.int c))) =
      (binary rt checked op (ScalarCode.unsigned decls op x (.const (.int c)))
        (evalOperand rt decls s.locals x).1 (.int 64 c)).map
        fun v => (v, (evalOperand rt decls s.locals x).2, s.world) := by
  simp only [evalRvalue, callsRuntime_inline h, Bool.false_eq_true, if_false]
  rfl

theorem evalRvalue_left {c : Word} {s : ScalarState W} (h : isInline op = true) :
    evalRvalue rt checked decls s (.binaryOp op (.const (.int c)) x) =
      (binary rt checked op (ScalarCode.unsigned decls op (.const (.int c)) x) (.int 64 c)
        (evalOperand rt decls s.locals x).1).map
        fun v => (v, (evalOperand rt decls s.locals x).2, s.world) := by
  simp only [evalRvalue, callsRuntime_inline h, Bool.false_eq_true, if_false]
  rfl

/-- What both sides compute of the word of the operand, before they move out of it. -/
theorem map_eq_iff {a b : Except Fault ClValue} {after : Local → Word} {w : W} :
    a.map (fun v => (v, after, w)) = b.map (fun v => (v, after, w)) ↔ a = b := by
  constructor
  · intro h
    cases a <;> cases b <;> cases h <;> rfl
  · rintro rfl
    rfl

theorem arith_eq_ok_iff {isUnsigned overflow : Bool} {kind : Nat} {v : Word} :
    arith checked isUnsigned overflow kind v = .ok (.int 64 v) ↔
      (checked = true → overflow = false) := by
  unfold arith
  cases checked <;> cases overflow <;> simp

theorem divide_scale {isUnsigned isMod : Bool} {v c quot : Word} (h : IsScale c) :
    divide isUnsigned isMod v c quot = .ok (.int 64 quot) := by
  unfold divide
  rw [if_neg h.ne_zero]
  split_ifs with h1 h2 h3
  · rfl
  · exact absurd h2.2 h.ne_neg_one
  · exact absurd h3.2.1 h.ne_neg_one
  · rfl

theorem binary_words_eq (isUnsigned : Bool) (l r : Word) (hshift : BinOp.isShift op = false) :
    binary rt checked op isUnsigned (.int 64 l) (.int 64 r) = intBinary checked isUnsigned op l r := by
  simp only [binary, hshift, Bool.false_eq_true, if_false, dif_pos]
  rfl

theorem shl_scale {isUnsigned : Bool} {v c : Word} (h : IsScale c) :
    binary rt checked .shl isUnsigned (.int 64 v) (.int 64 c.ctz) =
      .ok (.int 64 (v <<< c.ctz.toNat)) := by
  have hlt := h.twoPow.2.1
  simp only [binary, BinOp.isShift, if_true, shift, Nat.mod_eq_of_lt (show c.ctz.toNat < 64 by omega)]

theorem shr_scale {isUnsigned : Bool} {v c : Word} (h : IsScale c) :
    binary rt checked .shr isUnsigned (.int 64 v) (.int 64 c.ctz) =
      .ok (.int 64 (if isUnsigned then v >>> c.ctz.toNat else v.sshiftRight c.ctz.toNat)) := by
  have hlt := h.twoPow.2.1
  simp only [binary, BinOp.isShift, if_true, shift, Nat.mod_eq_of_lt (show c.ctz.toNat < 64 by omega)]

/-- A product of words, the constant on either side. -/
theorem product_iff {isUnsigned : Bool} {v c : Word} (h : IsScale c) :
    (.ok (.int 64 (v <<< c.ctz.toNat)) = intBinary checked isUnsigned .mul v c ↔
      (checked = true → (if isUnsigned then v.umulOverflow c else v.smulOverflow c) = false)) ∧
    (.ok (.int 64 (v <<< c.ctz.toNat)) = intBinary checked isUnsigned .mul c v ↔
      (checked = true → (if isUnsigned then v.umulOverflow c else v.smulOverflow c) = false)) := by
  rw [← mul_scale h]
  have hcomm : intBinary checked isUnsigned .mul c v = intBinary checked isUnsigned .mul v c := by
    simp only [intBinary, BitVec.mul_comm c v]
    congr 1
    unfold BitVec.umulOverflow BitVec.smulOverflow
    rw [Nat.mul_comm, Int.mul_comm]
  rw [hcomm]
  constructor <;> exact eq_comm.trans arith_eq_ok_iff

theorem quotient_iff {isUnsigned : Bool} {v c : Word} (h : IsScale c) :
    .ok (.int 64 (if isUnsigned then v >>> c.ctz.toNat else v.sshiftRight c.ctz.toNat)) =
        intBinary checked isUnsigned .div v c ↔
      isUnsigned = true ∨ 0 ≤ v.toInt ∨ c.toInt ∣ v.toInt := by
  simp only [intBinary, divide_scale h, Except.ok.injEq, ClValue.int.injEq, heq_eq_eq, true_and]
  cases isUnsigned with
  | true => simp [udiv_scale h]
  | false =>
    simp only [Bool.false_eq_true, if_false, false_or]
    exact eq_comm.trans (sdiv_scale_iff h)

theorem remainder_iff {isUnsigned : Bool} {v c : Word} (h : IsScale c) :
    .ok (.int 64 (v &&& (c - 1))) = intBinary checked isUnsigned .mod v c ↔
      isUnsigned = true ∨ 0 ≤ v.toInt ∨ c.toInt ∣ v.toInt := by
  simp only [intBinary, divide_scale h, Except.ok.injEq, ClValue.int.injEq, heq_eq_eq, true_and]
  cases isUnsigned with
  | true => simp [umod_scale h]
  | false =>
    simp only [Bool.false_eq_true, if_false, false_or]
    exact eq_comm.trans (srem_scale_iff h)

theorem binary_and (isUnsigned : Bool) (l r : Word) :
    binary rt checked .and isUnsigned (.int 64 l) (.int 64 r) = .ok (.int 64 (l &&& r)) :=
  binary_words_eq isUnsigned l r rfl

theorem unsigned_const {c : Word} : ScalarCode.unsigned decls op x (.const (.int c)) =
    (x.class decls).isU64 := by
  cases op <;> first | rfl | exact Bool.or_false _

theorem exact_product_iff (hwide : operandWidth decls d.x = 64) (hop : d.op = .mul) :
    Exact checked decls locals d ↔ (checked = true →
      (if (d.x.class decls).isU64 then (wordOf locals d.x).umulOverflow d.c
        else (wordOf locals d.x).smulOverflow d.c) = false) := by
  constructor
  · intro h
    exact h.product hop
  · intro h
    exact ⟨hwide, fun _ => h, fun hne => absurd hop hne⟩

theorem exact_quotient_iff (hwide : operandWidth decls d.x = 64) (hop : d.op ≠ .mul) :
    Exact checked decls locals d ↔ (d.x.class decls).isU64 = true ∨
      0 ≤ (wordOf locals d.x).toInt ∨ d.c.toInt ∣ (wordOf locals d.x).toInt := by
  constructor
  · intro h
    exact h.quotient hop
  · intro h
    exact ⟨hwide, fun heq => absurd heq hop, fun _ => h⟩

/-- On a word, the reduced operation is the operation where the condition on its value holds. -/
theorem reduced_wide_iff {s : ScalarState W} (hint : isInteger decls d.x = true)
    (h : scaling? decls rval = some d) (hwide : operandWidth decls d.x = 64) :
    evalRvalue rt checked decls s d.reduced = evalRvalue rt checked decls s rval ↔
      Exact checked decls s.locals d := by
  have hword : (evalOperand rt decls s.locals d.x).1 = .int 64 (wordOf s.locals d.x) :=
    evalOperand_word hint hwide
  obtain ⟨hscale, ⟨hop, hrval⟩ | ⟨hop, hrval⟩ | ⟨hop, hrval⟩⟩ := scaling?_eq_some h
  · rw [exact_product_iff hwide hop]
    unfold Scaling.reduced
    rw [hop]
    rcases hrval with rfl | rfl
    · rw [evalRvalue_right (rfl : isInline .shl = true), evalRvalue_right (rfl : isInline .mul = true),
        hword, map_eq_iff, shl_scale hscale, binary_words_eq _ _ _ rfl, unsigned_const]
      exact (product_iff hscale).1
    · rw [evalRvalue_right (rfl : isInline .shl = true), evalRvalue_left (rfl : isInline .mul = true),
        hword, map_eq_iff, shl_scale hscale, binary_words_eq _ _ _ rfl]
      exact (product_iff hscale).2
  · rw [exact_quotient_iff hwide (by rw [hop]; decide), hrval]
    unfold Scaling.reduced
    rw [hop, evalRvalue_right (rfl : isInline .shr = true), evalRvalue_right (rfl : isInline .div = true),
      hword, map_eq_iff, shr_scale hscale, binary_words_eq _ _ _ rfl, unsigned_const, unsigned_const]
    exact quotient_iff hscale
  · rw [exact_quotient_iff hwide (by rw [hop]; decide), hrval]
    unfold Scaling.reduced
    rw [hop, evalRvalue_right (rfl : isInline .and = true), evalRvalue_right (rfl : isInline .mod = true),
      hword, map_eq_iff, binary_and, binary_words_eq _ _ _ rfl, unsigned_const]
    exact remainder_iff hscale

/-- A target that stops at a product, quotient or remainder of two widths, and at nothing else. -/
def stopsAtMixed (W : Type) : ScalarRuntime W where
  float := ⟨fun a _ => a, fun a _ => a, fun a _ => a, fun a _ => a, fun a b => a == b,
    fun _ _ => false, fun a b => a == b⟩
  address _ := 0
  mixed op l _ :=
    match op with
    | .mul | .div | .mod => .error .trap
    | _ => .ok l
  mixedUnary _ v := v
  toInt _ _ := 0
  rvalue _ _ _ := .error .trap
  stmt _ _ _ := .error .trap

theorem binary_narrow {n m : Nat} {isUnsigned : Bool} {l : BitVec n} {r : BitVec m} (hne : m ≠ n)
    (hshift : BinOp.isShift op = false) :
    binary rt checked op isUnsigned (.int n l) (.int m r) = rt.mixed op (.int n l) (.int m r) := by
  simp only [binary, hshift, Bool.false_eq_true, if_false, dif_neg hne]

theorem binary_shift {n m : Nat} {isUnsigned : Bool} {l : BitVec n} {r : BitVec m}
    (hshift : BinOp.isShift op = true) :
    binary rt checked op isUnsigned (.int n l) (.int m r) = .ok (shift isUnsigned op l r.toNat) := by
  simp only [binary, hshift, if_true]

/-- An operation on a narrower operand and the word of the constant has no meaning that the target
has to keep. -/
theorem reduced_narrow {s : ScalarState W} (hint : isInteger decls d.x = true)
    (h : scaling? decls rval = some d) (hnarrow : operandWidth decls d.x ≠ 64) :
    evalRvalue (stopsAtMixed W) checked decls s d.reduced ≠
      evalRvalue (stopsAtMixed W) checked decls s rval := by
  obtain ⟨v, hv⟩ : ∃ v, (evalOperand (stopsAtMixed W) decls s.locals d.x).1 =
      .int (operandWidth decls d.x) v := evalOperand_narrow hint
  obtain ⟨_, ⟨hop, hrval⟩ | ⟨hop, rfl⟩ | ⟨hop, rfl⟩⟩ := scaling?_eq_some h
  · unfold Scaling.reduced
    rw [hop]
    rcases hrval with rfl | rfl
    · rw [evalRvalue_right (rfl : isInline .shl = true), evalRvalue_right (rfl : isInline .mul = true),
        hv, Ne, map_eq_iff, binary_shift rfl, binary_narrow hnarrow.symm rfl]
      rintro ⟨⟩
    · rw [evalRvalue_right (rfl : isInline .shl = true), evalRvalue_left (rfl : isInline .mul = true),
        hv, Ne, map_eq_iff, binary_shift rfl, binary_narrow hnarrow rfl]
      rintro ⟨⟩
  · unfold Scaling.reduced
    rw [hop, evalRvalue_right (rfl : isInline .shr = true), evalRvalue_right (rfl : isInline .div = true),
      hv, Ne, map_eq_iff, binary_shift rfl, binary_narrow hnarrow.symm rfl]
    rintro ⟨⟩
  · unfold Scaling.reduced
    rw [hop, evalRvalue_right (rfl : isInline .and = true), evalRvalue_right (rfl : isInline .mod = true),
      hv, Ne, map_eq_iff, binary_narrow hnarrow.symm rfl, binary_narrow hnarrow.symm rfl]
    rintro ⟨⟩

/-- Whatever the target does with operations on two widths, a reduced operation is the operation
exactly where the condition holds. -/
theorem reduced_iff {s : ScalarState W} (hint : isInteger decls d.x = true)
    (h : scaling? decls rval = some d) :
    (∀ rt : ScalarRuntime W, evalRvalue rt checked decls s d.reduced =
      evalRvalue rt checked decls s rval) ↔ Exact checked decls s.locals d := by
  constructor
  · intro hall
    by_cases hwide : operandWidth decls d.x = 64
    · exact (reduced_wide_iff hint h hwide).mp (hall (stopsAtMixed W))
    · exact absurd (hall (stopsAtMixed W)) (reduced_narrow hint h hwide)
  · intro hexact rt
    exact (reduced_wide_iff hint h hexact.wide).mpr hexact

end Steps

section Runs

variable {W : Type} {rt : ScalarRuntime W} {checked : Bool} {f : MirFunction}

/-- The operation that the pass reduces at a point. -/
def scalingAt? (f : MirFunction) (p : ScalarPoint W) : Option Scaling :=
  (f.basicBlocks[p.bb]?).bind fun block => (block.statements[p.idx]?).bind fun stmt =>
    match stmt.kind with
    | .assign _ rval => scaling? f.locals rval
    | _ => none

theorem step_reduced {p : ScalarPoint W} (hint : ∀ d, scalingAt? f p = some d →
      isInteger f.locals d.x = true)
    (h : ∀ d, scalingAt? f p = some d → Exact checked f.locals p.state.locals d) :
    ScalarCode.step rt checked (strengthReduction f) p = ScalarCode.step rt checked f p := by
  refine @step_rewritten _ _ _ _ _ _ (fun bb => bb.statements.map (runStmt f.locals))
    (fun _ _ stmt => runStmt f.locals stmt) rfl rfl ?_ ?_
  · intro block idx
    exact List.getElem?_map
  · intro block stmt hblock hstmt
    unfold runStmt
    split
    next dst rval hkind =>
      cases hd : scaling? f.locals rval with
      | none => simp only [reduce, hd, Option.elim, execStmt, hkind]
      | some d =>
        have hat : scalingAt? f p = some d := by
          simp only [scalingAt?, hblock, hstmt, Option.bind_some, hkind, hd]
        have heq := (reduced_iff (hint d hat) hd).mpr (h d hat) rt
        simp only [reduce, hd, Option.elim, execStmt, hkind, execAssign, heq]
    next => rfl

end Runs

end StrengthReduction

open StrengthReduction

/-- On integer operands, an operation that is reduced gives the value or the fault that it gave, on
every target, exactly where the condition holds; and a run that meets the condition wherever an
operation was reduced is the run before. -/
theorem strengthReduction_preserves {W : Type} (checked : Bool) (f : MirFunction)
    (hint : ∀ stmt ∈ f.statements, ∀ dst rval d, stmt.kind = .assign dst rval →
      scaling? f.locals rval = some d → isInteger f.locals d.x = true) :
    (∀ stmt ∈ f.statements, ∀ dst rval d, stmt.kind = .assign dst rval →
      scaling? f.locals rval = some d → ∀ s : ScalarState W,
        ((∀ rt : ScalarRuntime W, evalRvalue rt checked f.locals s d.reduced =
          evalRvalue rt checked f.locals s rval) ↔ Exact checked f.locals s.locals d)) ∧
    ∀ (rt : ScalarRuntime W) (start : ScalarPoint W),
      (∀ p, Reaches (ScalarCode.step rt checked f) start p → ∀ d, scalingAt? f p = some d →
        Exact checked f.locals p.state.locals d) →
      (∀ p, Reaches (ScalarCode.step rt checked f) start p ↔
        Reaches (ScalarCode.step rt checked (strengthReduction f)) start p) ∧
      ∀ o, Yields (ScalarCode.step rt checked f) start o ↔
        Yields (ScalarCode.step rt checked (strengthReduction f)) start o := by
  have hat {p : ScalarPoint W} {d : Scaling} (hd : scalingAt? f p = some d) :
      isInteger f.locals d.x = true := by
    obtain ⟨block, hblock, hd⟩ := Option.bind_eq_some_iff.mp hd
    obtain ⟨stmt, hstmt, hd⟩ := Option.bind_eq_some_iff.mp hd
    split at hd
    next dst rval hkind =>
      refine hint stmt ?_ dst rval d hkind hd
      exact List.mem_flatMap.mpr
        ⟨block, List.mem_of_getElem? hblock, List.mem_of_getElem? hstmt⟩
    next => cases hd
  refine ⟨?_, ?_⟩
  · intro stmt hstmt dst rval d hkind hd s
    exact reduced_iff (hint stmt hstmt dst rval d hkind hd) hd
  · intro rt start hexact
    have hstep : ∀ p, Reaches (ScalarCode.step rt checked f) start p →
        ScalarCode.step rt checked (strengthReduction f) p = ScalarCode.step rt checked f p :=
      fun p hp => step_reduced (fun d hd => hat hd) (hexact p hp)
    exact ⟨fun p => reaches_iff_of_step_eq hstep, fun o => yields_iff_of_step_eq hstep⟩

section Examples

/-- `_0 = _1 op 2`, for an `_1` of the given type. -/
def byTwo (op : BinOp) (ty : OliveType) : MirFunction :=
  plainFunction "by_two" 1 [ty, ty]
    [⟨[plainStmt (.assign 0 (.binaryOp op (.copy 1) (.const (.int 2))))], plainTerm .ret⟩]

theorem byTwo_integer {op : BinOp} {ty : OliveType} (h : ScalarCode.isIntLike ty = true) :
    ∀ stmt ∈ (byTwo op ty).statements, ∀ dst rval d, stmt.kind = .assign dst rval →
      scaling? (byTwo op ty).locals rval = some d → isInteger (byTwo op ty).locals d.x = true := by
  intro stmt hstmt dst rval d hkind hd
  obtain rfl : stmt = plainStmt (.assign 0 (.binaryOp op (.copy 1) (.const (.int 2)))) :=
    List.mem_singleton.mp hstmt
  cases hkind
  obtain ⟨_, ⟨_, heq | heq⟩ | ⟨_, heq⟩ | ⟨_, heq⟩⟩ := scaling?_eq_some hd
  · injection heq with _ hx
    rw [← hx]
    exact h
  · cases heq
  · injection heq with _ hx
    rw [← hx]
    exact h
  · injection heq with _ hx
    rw [← hx]
    exact h

/-- An unsigned remainder with the top bit set. -/
theorem byTwo_exact (p : ScalarPoint Unit)
    (hp : Reaches (ScalarCode.step plainScalars true (byTwo .mod .u64)) (scalarStart [0, -1]) p)
    (d : Scaling) (hd : scalingAt? (byTwo .mod .u64) p = some d) :
    Exact true (byTwo .mod .u64).locals p.state.locals d := by
  have hend : runs (ScalarCode.step plainScalars true (byTwo .mod .u64)) 2 (scalarStart [0, -1]) =
      .inr (.ok (1, ())) := rfl
  obtain ⟨n, hn, hrun⟩ := hp.lt_end hend
  obtain rfl | rfl : n = 0 ∨ n = 1 := by omega
  · cases hrun
    have hat : scalingAt? (byTwo .mod .u64) (scalarStart [0, -1]) = some ⟨.mod, .copy 1, 2⟩ := rfl
    obtain rfl := Option.some.inj (hat.symm.trans hd)
    exact ⟨rfl, (fun h => nomatch h), fun _ => .inl rfl⟩
  · cases hrun
    cases hd

theorem strengthReduction_preserves_byTwo :
    (∀ p, Reaches (ScalarCode.step plainScalars true (byTwo .mod .u64)) (scalarStart [0, -1]) p ↔
      Reaches (ScalarCode.step plainScalars true (strengthReduction (byTwo .mod .u64)))
        (scalarStart [0, -1]) p) ∧
    ∀ o, Yields (ScalarCode.step plainScalars true (byTwo .mod .u64)) (scalarStart [0, -1]) o ↔
      Yields (ScalarCode.step plainScalars true (strengthReduction (byTwo .mod .u64)))
        (scalarStart [0, -1]) o :=
  (strengthReduction_preserves true (byTwo .mod .u64) (byTwo_integer rfl)).2 plainScalars
    (scalarStart [0, -1]) byTwo_exact

theorem strengthReduction_byTwo {op by' : BinOp} {ty : OliveType} {d : Scaling}
    (hd : scaling? (byTwo op ty).locals (.binaryOp op (.copy 1) (.const (.int 2))) = some d)
    (hreduced : d.reduced = .binaryOp by' (.copy 1) (.const (.int (2 : Word).ctz))) :
    strengthReduction (byTwo op ty) =
      { byTwo op ty with basicBlocks :=
          [⟨[plainStmt (.assign 0 (.binaryOp by' (.copy 1) (.const (.int 1))))], plainTerm .ret⟩] } := by
  have hctz : (2 : Word).ctz = 1 := by decide +kernel
  rw [hctz] at hreduced
  have hreduce : reduce (byTwo op ty).locals (.binaryOp op (.copy 1) (.const (.int 2))) =
      .binaryOp by' (.copy 1) (.const (.int 1)) := by
    rw [reduce, hd]
    exact hreduced
  have hstmt : runStmt (byTwo op ty).locals
      (plainStmt (.assign 0 (.binaryOp op (.copy 1) (.const (.int 2))))) =
        plainStmt (.assign 0 (.binaryOp by' (.copy 1) (.const (.int 1)))) := by
    rw [← hreduce]
    rfl
  unfold strengthReduction
  rw [← hstmt]
  rfl

theorem byConstant_two {decls : List LocalDecl} {op : BinOp} (h : isPyobjOp decls (.copy 1) = false) :
    byConstant decls op (.copy 1) (.const (.int 2)) = some ⟨op, .copy 1, 2⟩ :=
  if_pos ⟨by decide, by decide, h⟩

/-- The product of 2^62 and 2 overflows and the shift does not; half of the `usize` that has all bits
set is zero as codegen divides, and all bits set as it shifts. -/
theorem strengthReduction_changes_values :
    (Yields (ScalarCode.step plainScalars true (byTwo .mul .int)) (scalarStart [0, 0x4000000000000000])
        (.error (.runtime 2)) ∧
      ¬Yields (ScalarCode.step plainScalars true (strengthReduction (byTwo .mul .int)))
        (scalarStart [0, 0x4000000000000000]) (.error (.runtime 2))) ∧
    (Yields (ScalarCode.step plainScalars true (byTwo .div .usize)) (scalarStart [0, -1])
        (.ok (0, ())) ∧
      ¬Yields (ScalarCode.step plainScalars true (strengthReduction (byTwo .div .usize)))
        (scalarStart [0, -1]) (.ok (0, ()))) := by
  have hmul : scaling? (byTwo .mul .int).locals (.binaryOp .mul (.copy 1) (.const (.int 2))) =
      some ⟨.mul, .copy 1, 2⟩ := by
    rw [scaling?, byConstant_two (by rfl)]
    rfl
  have hdiv : scaling? (byTwo .div .usize).locals (.binaryOp .div (.copy 1) (.const (.int 2))) =
      some ⟨.div, .copy 1, 2⟩ := by
    rw [scaling?, byConstant_two (by rfl)]
    rfl
  rw [strengthReduction_byTwo hmul rfl, strengthReduction_byTwo hdiv rfl]
  refine ⟨⟨⟨2, rfl⟩, ?_⟩, ⟨⟨2, rfl⟩, ?_⟩⟩
  · exact @not_yields_of_runs _ _ 2 _ (.ok (0x8000000000000000, ())) rfl (by decide)
  · exact @not_yields_of_runs _ _ 2 _ (.ok (-1, ())) rfl (by decide)

end Examples

end Olive
