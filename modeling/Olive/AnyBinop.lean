import Mathlib.Data.Char
import Mathlib.Data.List.Lex
import Olive.ScalarCode

/-! Operators on `Any`: the runtime's, and the code that call sites which saw integers only have
inline. -/

namespace Olive

open ScalarCode

namespace AnyBinop

def tagMask : Word := 7

def tagInt : Word := 2

def tagBool : Word := 4

def tagNull : Word := 6

def anyIntMin : Int := -2 ^ 60

def anyIntMax : Int := 2 ^ 60 - 1

def kindList : Word := 1

def kindPyobject : Word := 7

def kindFloat : Word := 11

def kindInt : Word := 14

def kindAnyList : Word := 15

/-- What the operators call: any functions at all, on any state of the heap and of Python. -/
structure AnyRuntime (W : Type) where
  /-- Whether a positive multiple of 8 is the body of a live slot. -/
  isLiveSlot : W → Word → Bool
  /-- The first and the second word of a slot. -/
  kind : W → Word → Word
  bits : W → Word → Word
  heapBox : (kind bits : Word) → W → Word × W
  strConcat : Word → Word → W → Word × W
  listConcat : Word → Word → W → Word × W
  text : W → Word → List Char
  /-- `parse` of the trimmed text, zero where it fails. -/
  parseInt : List Char → Word
  parseFloat : List Char → Word
  pyToInt : Word → W → Word × W
  pyToFloat : Word → W → Word × W
  float : FloatOps
  floatRem : Word → Word → Word
  floatOfInt : Word → Word
  intOfFloat : Word → Word

section Runtime

variable {W : Type} (rt : AnyRuntime W)

def isActiveObject (w : W) (v : Word) : Bool :=
  decide (0 < v.toInt) && v &&& 7 == 0 && rt.isLiveSlot w v

/-- `as_boxed`: kind and bits of a scalar on the heap. -/
def asBoxed (w : W) (v : Word) : Option (Word × Word) :=
  if isActiveObject rt w v then
    if rt.kind w v = kindFloat ∨ rt.kind w v = kindInt then some (rt.kind w v, rt.bits w v) else none
  else none

def anyIsStr (v : Word) : Bool :=
  v &&& 1 == 1 && decide (0x10000 < (v &&& ~~~1).toInt)

def isPyobject (w : W) (v : Word) : Bool :=
  isActiveObject rt w v && rt.kind w v == kindPyobject

def anyIsFloat (w : W) (v : Word) : Bool :=
  isActiveObject rt w v && rt.kind w v == kindFloat

def anyIsList (w : W) (v : Word) : Bool :=
  isActiveObject rt w v && (rt.kind w v == kindList || rt.kind w v == kindAnyList)

def oliveBoxInt (i : Word) (w : W) : Word × W :=
  if anyIntMin ≤ i.toInt ∧ i.toInt ≤ anyIntMax then ((i <<< 3) ||| tagInt, w)
  else rt.heapBox kindInt i w

def oliveBoxFloat (bits : Word) (w : W) : Word × W :=
  rt.heapBox kindFloat bits w

def oliveUnboxInt (v : Word) (w : W) : Word × W :=
  if v &&& tagMask = tagInt ∨ v &&& tagMask = tagBool then (v.sshiftRight 3, w)
  else if v &&& tagMask = tagNull then (0, w)
  else
    match asBoxed rt w v with
    | some (kind, bits) => (if kind = kindFloat then rt.intOfFloat bits else bits, w)
    | none =>
      if anyIsStr v then (rt.parseInt (rt.text w v), w)
      else if isPyobject rt w v then rt.pyToInt v w
      else (v, w)

def oliveUnboxFloat (v : Word) (w : W) : Word × W :=
  if v &&& tagMask = tagInt ∨ v &&& tagMask = tagBool then (rt.floatOfInt (v.sshiftRight 3), w)
  else if v &&& tagMask = tagNull then (0, w)
  else
    match asBoxed rt w v with
    | some (kind, bits) => (if kind = kindFloat then bits else rt.floatOfInt bits, w)
    | none =>
      if anyIsStr v then (rt.parseFloat (rt.text w v), w)
      else if isPyobject rt w v then rt.pyToFloat v w
      else (rt.floatOfInt v, w)

/-- Both operands unboxed, the left one first. -/
def unboxed (unbox : Word → W → Word × W) (a b : Word) (w : W) : Word × Word × W :=
  let left := unbox a w
  let right := unbox b left.2
  (left.1, right.1, right.2)

/-- The path of two floats, or of one and what converts to one. -/
def onFloats (op : Word → Word → Word) (a b : Word) (w : W) : Word × W :=
  let (x, y, w) := unboxed (oliveUnboxFloat rt) a b w
  oliveBoxFloat rt (op x y) w

def onInts (op : Word → Word → Word) (a b : Word) (w : W) : Word × W :=
  let (x, y, w) := unboxed (oliveUnboxInt rt) a b w
  oliveBoxInt rt (op x y) w

def oliveAnyAdd (a b : Word) (w : W) : Word × W :=
  if anyIsStr a || anyIsStr b then rt.strConcat a b w
  else if anyIsFloat rt w a || anyIsFloat rt w b then onFloats rt rt.float.add a b w
  else if anyIsList rt w a && anyIsList rt w b then rt.listConcat a b w
  else onInts rt (· + ·) a b w

/-- `any_arith!`. -/
def anyArith (float wrapping : Word → Word → Word) (a b : Word) (w : W) : Word × W :=
  if anyIsFloat rt w a || anyIsFloat rt w b then onFloats rt float a b w
  else onInts rt wrapping a b w

def oliveAnySub : Word → Word → W → Word × W :=
  anyArith rt rt.float.sub (· - ·)

def oliveAnyMul : Word → Word → W → Word × W :=
  anyArith rt rt.float.mul (· * ·)

/-- The divisor is unboxed first, and the dividend only where it is not zero. -/
def byDivisor (op : Word → Word → Word) (a b : Word) (w : W) : Word × W :=
  let d := oliveUnboxInt rt b w
  if d.1 = 0 then oliveBoxInt rt 0 d.2
  else
    let n := oliveUnboxInt rt a d.2
    oliveBoxInt rt (op n.1 d.1) n.2

def oliveAnyDiv (a b : Word) (w : W) : Word × W :=
  if anyIsFloat rt w a || anyIsFloat rt w b then onFloats rt rt.float.div a b w
  else byDivisor rt BitVec.sdiv a b w

def oliveAnyMod (a b : Word) (w : W) : Word × W :=
  if anyIsFloat rt w a || anyIsFloat rt w b then onFloats rt rt.floatRem a b w
  else byDivisor rt BitVec.srem a b w

/-- `any_cmp!`. -/
def anyCmp (texts : List Char → List Char → Bool) (floats ints : Word → Word → Bool) (a b : Word)
    (w : W) : Word × W :=
  if anyIsStr a && anyIsStr b then (boolWord (texts (rt.text w a) (rt.text w b)), w)
  else if anyIsFloat rt w a || anyIsFloat rt w b then
    let (x, y, w) := unboxed (oliveUnboxFloat rt) a b w
    (boolWord (floats x y), w)
  else
    let (x, y, w) := unboxed (oliveUnboxInt rt) a b w
    (boolWord (ints x y), w)

def oliveAnyLt : Word → Word → W → Word × W :=
  anyCmp rt (fun a b => decide (a < b)) rt.float.lt BitVec.slt

def oliveAnyLe : Word → Word → W → Word × W :=
  anyCmp rt (fun a b => decide (a ≤ b)) rt.float.le BitVec.sle

def oliveAnyGt : Word → Word → W → Word × W :=
  anyCmp rt (fun a b => decide (b < a)) (fun x y => rt.float.lt y x) fun x y => y.slt x

def oliveAnyGe : Word → Word → W → Word × W :=
  anyCmp rt (fun a b => decide (b ≤ a)) (fun x y => rt.float.le y x) fun x y => y.sle x

def oliveAnyEq : Word → Word → W → Word × W :=
  anyCmp rt (fun a b => a == b) rt.float.eq (· == ·)

def oliveAnyNe : Word → Word → W → Word × W :=
  anyCmp rt (fun a b => a != b) (fun x y => !rt.float.eq x y) (· != ·)

/-- The helper of each operator that has one. -/
def oliveAny : BinOp → Option (Word → Word → W → Word × W)
  | .add => some (oliveAnyAdd rt)
  | .sub => some (oliveAnySub rt)
  | .mul => some (oliveAnyMul rt)
  | .div => some (oliveAnyDiv rt)
  | .mod => some (oliveAnyMod rt)
  | .lt => some (oliveAnyLt rt)
  | .ltEq => some (oliveAnyLe rt)
  | .gt => some (oliveAnyGt rt)
  | .gtEq => some (oliveAnyGe rt)
  | .eq => some (oliveAnyEq rt)
  | .notEq => some (oliveAnyNe rt)
  | _ => none

end Runtime

section Inline

/-- The high word of the product of two signed words. -/
def smulhi (x y : Word) : Word :=
  BitVec.ofInt 64 (x.toInt * y.toInt / 2 ^ 64)

/-- The instructions of division, which trap. -/
def sdivInst (x y : Word) : Except Fault Word :=
  if y = 0 ∨ (x = BitVec.intMin 64 ∧ y = -1) then .error .trap else .ok (x.sdiv y)

def sremInst (x y : Word) : Except Fault Word :=
  if y = 0 then .error .trap else .ok (x.srem y)

/-- The comparison of the biased word. -/
def inRange (raw : Word) : Bool :=
  (raw + BitVec.ofInt 64 (-anyIntMin)).ule (BitVec.ofInt 64 (anyIntMax - anyIntMin))

def tagged (raw : Word) : Word :=
  (raw <<< 3) ||| tagInt

/-- The guard on the tags of both operands. -/
def bothInt (l r : Word) : Bool :=
  ((l ^^^ tagInt) ||| (r ^^^ tagInt)) &&& tagMask == 0

/-- The block of an operator on two payloads: the word that it goes on to the merge block with, none
where it goes on to the slow block. -/
def computeBlock (op : BinOp) (vl vr : Word) : Except Fault (Option Word) :=
  match op with
  | .add =>
    let raw := vl + vr
    .ok (if inRange raw then some (tagged raw) else none)
  | .sub =>
    let raw := vl - vr
    .ok (if inRange raw then some (tagged raw) else none)
  | .mul =>
    let hi := smulhi vl vr
    let lo := vl * vr
    let sign := lo.sshiftRight 63
    .ok (if hi = sign ∧ inRange lo then some (tagged lo) else none)
  | .div =>
    if vr = 0 then .ok none
    else (sdivInst vl vr).map fun raw => if inRange raw then some (tagged raw) else none
  | .mod =>
    if vr = 0 then .ok none
    else (sremInst vl vr).map fun raw => some (tagged raw)
  | .lt => .ok (some (boolWord (vl.slt vr)))
  | .ltEq => .ok (some (boolWord (vl.sle vr)))
  | .gt => .ok (some (boolWord (vr.slt vl)))
  | .gtEq => .ok (some (boolWord (vr.sle vl)))
  | .eq => .ok (some (boolWord (vl == vr)))
  | .notEq => .ok (some (boolWord (vl != vr)))
  | _ => .error .trap

/-- The fast block and what follows it, none where the slow block runs. -/
def fastPath (op : BinOp) (l r : Word) : Except Fault (Option Word) :=
  if bothInt l r then computeBlock op (l.sshiftRight 3) (r.sshiftRight 3) else .ok none

variable {W : Type} (rt : AnyRuntime W)

def anySiteSampleWindow : Nat := 8

def anySiteMixed : Nat := 254

def isPlainIntAny (w : W) (v : Word) : Bool :=
  !anyIsStr v && !anyIsFloat rt w v && !anyIsList rt w v

/-- `any_profiled!`: what a site has seen is recorded before the call. -/
def anyProfiled (inner : Word → Word → W → Word × W) (a b : Word) (site : Nat) (w : W) :
    (Word × W) × Nat :=
  let next :=
    if site < anySiteSampleWindow then
      if isPlainIntAny rt w a && isPlainIntAny rt w b then site + 1 else anySiteMixed
    else site
  (inner a b w, next)

/-- `translate_any_binop_specialized`, with the call of the profiled helper in its slow block. -/
def translateAnyBinopSpecialized (op : BinOp) (inner : Word → Word → W → Word × W) (l r : Word)
    (site : Nat) (w : W) : Except Fault ((Word × W) × Nat) :=
  (fastPath op l r).map fun
    | some x => ((x, w), site)
    | none => anyProfiled rt inner l r site w

end Inline

section Payloads

variable {v l r raw x y : Word}

theorem xor_tag_iff : (v ^^^ tagInt) &&& tagMask = 0 ↔ v &&& tagMask = tagInt := by
  have hdist : (v ^^^ tagInt) &&& tagMask = (v &&& tagMask) ^^^ (tagInt &&& tagMask) := by
    ext i hi
    simp [Bool.and_xor_distrib_right]
  have htag : tagInt &&& tagMask = tagInt := by decide
  rw [hdist, htag]
  exact BitVec.xor_eq_zero_iff

theorem bothInt_iff : bothInt l r = true ↔ l &&& tagMask = tagInt ∧ r &&& tagMask = tagInt := by
  unfold bothInt
  rw [beq_iff_eq, BitVec.and_or_distrib_right]
  exact BitVec.or_eq_zero_iff.trans (and_congr xor_tag_iff xor_tag_iff)

theorem payload_bounds (v : Word) :
    anyIntMin ≤ (v.sshiftRight 3).toInt ∧ (v.sshiftRight 3).toInt ≤ anyIntMax := by
  have hlow := BitVec.le_toInt v
  have hhigh := BitVec.toInt_lt (x := v)
  rw [BitVec.toInt_sshiftRight, Int.shiftRight_eq_div_pow]
  unfold anyIntMin anyIntMax
  omega

theorem inRange_iff : inRange raw = true ↔ anyIntMin ≤ raw.toInt ∧ raw.toInt ≤ anyIntMax := by
  have hbias : (BitVec.ofInt 64 (-anyIntMin)).toNat = 2 ^ 60 := by decide
  have hspan : (BitVec.ofInt 64 (anyIntMax - anyIntMin)).toNat = 2 ^ 61 - 1 := by decide
  unfold inRange BitVec.ule
  rw [decide_eq_true_iff, BitVec.toNat_add, hbias, hspan, BitVec.toInt_eq_toNat_cond]
  unfold anyIntMin anyIntMax
  have := raw.isLt
  split_ifs <;> omega

theorem smulhi_eq_sign_iff :
    smulhi x y = (x * y).sshiftRight 63 ↔
      -2 ^ 63 ≤ x.toInt * y.toInt ∧ x.toInt * y.toInt < 2 ^ 63 := by
  have hprod : -2 ^ 126 ≤ x.toInt * y.toInt ∧ x.toInt * y.toInt ≤ 2 ^ 126 := by
    have hx := BitVec.le_toInt x
    have hx' := BitVec.toInt_lt (x := x)
    have hy := BitVec.le_toInt y
    have hy' := BitVec.toInt_lt (x := y)
    have habs : x.toInt.natAbs * y.toInt.natAbs ≤ 2 ^ 63 * 2 ^ 63 :=
      Nat.mul_le_mul (by omega) (by omega)
    rw [← Int.natAbs_mul] at habs
    omega
  have hhi : (smulhi x y).toInt = x.toInt * y.toInt / 2 ^ 64 := by
    unfold smulhi
    rw [BitVec.toInt_ofInt]
    exact Int.bmod_eq_of_le (by omega) (by omega)
  rw [← BitVec.toInt_inj, hhi, BitVec.toInt_sshiftRight, Int.shiftRight_eq_div_pow, BitVec.toInt_mul,
    Int.bmod_def]
  generalize x.toInt * y.toInt = p at *
  split_ifs <;> omega

end Payloads

/-- The result of an arithmetic operator on integers, none for a divisor of zero. -/
def resultOf (op : BinOp) (a b : Int) : Option Int :=
  match op with
  | .add => some (a + b)
  | .sub => some (a - b)
  | .mul => some (a * b)
  | .div => if b = 0 then none else some (a.tdiv b)
  | .mod => if b = 0 then none else some (a.tmod b)
  | _ => none

def isArithmetic : BinOp → Bool
  | .add | .sub | .mul | .div | .mod => true
  | _ => false

/-- The comparison of two signed words. -/
def compared? (op : BinOp) (a b : Word) : Option Bool :=
  match op with
  | .lt => some (a.slt b)
  | .ltEq => some (a.sle b)
  | .gt => some (b.slt a)
  | .gtEq => some (b.sle a)
  | .eq => some (a == b)
  | .notEq => some (a != b)
  | _ => none

/-- An integer that is kept in the word itself. -/
def IsInline (z : Int) : Prop :=
  anyIntMin ≤ z ∧ z ≤ anyIntMax

instance : DecidablePred IsInline := fun _ => inferInstanceAs (Decidable (_ ∧ _))

/-- A payload. -/
structure Payload where
  word : Word
  small : IsInline word.toInt

def payload (v : Word) : Payload :=
  ⟨v.sshiftRight 3, payload_bounds v⟩

section Compute

variable {p q : Payload}

theorem tagged_exact {raw : Word} {z : Int} (h : raw.toInt = z) :
    (if inRange raw then some (tagged raw) else none) =
      if IsInline z then some (tagged (BitVec.ofInt 64 z)) else none := by
  have heq : BitVec.ofInt 64 z = raw := by
    rw [← h, BitVec.ofInt_toInt]
  have hiff : inRange raw = true ↔ IsInline z := by
    rw [inRange_iff, h]
    rfl
  simp only [heq, hiff]

theorem add_exact : (p.word + q.word).toInt = p.word.toInt + q.word.toInt := by
  have hp := p.small
  have hq := q.small
  unfold IsInline anyIntMin anyIntMax at hp hq
  rw [BitVec.toInt_add]
  exact Int.bmod_eq_of_le (by omega) (by omega)

theorem sub_exact : (p.word - q.word).toInt = p.word.toInt - q.word.toInt := by
  have hp := p.small
  have hq := q.small
  unfold IsInline anyIntMin anyIntMax at hp hq
  rw [BitVec.toInt_sub]
  exact Int.bmod_eq_of_le (by omega) (by omega)

/-- The high word tells a product that wrapped back into the range from one that is in it. -/
theorem mul_exact : (if smulhi p.word q.word = (p.word * q.word).sshiftRight 63 ∧
      inRange (p.word * q.word) then some (tagged (p.word * q.word)) else none) =
    if IsInline (p.word.toInt * q.word.toInt) then
      some (tagged (BitVec.ofInt 64 (p.word.toInt * q.word.toInt))) else none := by
  simp only [smulhi_eq_sign_iff]
  by_cases hfits : -2 ^ 63 ≤ p.word.toInt * q.word.toInt ∧ p.word.toInt * q.word.toInt < 2 ^ 63
  · have hint : (p.word * q.word).toInt = p.word.toInt * q.word.toInt := by
      rw [BitVec.toInt_mul]
      exact Int.bmod_eq_of_le (by omega) (by omega)
    rw [← tagged_exact hint]
    simp only [hfits, and_self, true_and]
  · have hout : ¬ IsInline (p.word.toInt * q.word.toInt) := by
      unfold IsInline anyIntMin anyIntMax
      omega
    rw [if_neg fun h => hfits h.1, if_neg hout]

theorem ne_intMin (p : Payload) : p.word ≠ BitVec.intMin 64 := by
  intro heq
  have hp := p.small
  have hmin : (BitVec.intMin 64).toInt = -2 ^ 63 := by decide
  rw [heq, hmin] at hp
  unfold IsInline anyIntMin anyIntMax at hp
  omega

theorem sdiv_exact : (p.word.sdiv q.word).toInt = p.word.toInt.tdiv q.word.toInt :=
  BitVec.toInt_sdiv_of_ne_or_ne _ _ (.inl (ne_intMin p))

theorem sdivInst_eq (h : q.word ≠ 0) : sdivInst p.word q.word = .ok (p.word.sdiv q.word) := by
  apply if_neg
  rintro (hzero | ⟨hmin, _⟩)
  · exact h hzero
  · exact ne_intMin p hmin

theorem toInt_eq_zero_iff {v : Word} : v.toInt = 0 ↔ v = 0 := by
  rw [← BitVec.toInt_inj]
  rfl

/-- A remainder is smaller than the divisor. -/
theorem srem_small (h : q.word ≠ 0) : IsInline (p.word.toInt.tmod q.word.toInt) := by
  have hq := q.small
  have hne : q.word.toInt ≠ 0 := fun h0 => h (toInt_eq_zero_iff.mp h0)
  have habs : (p.word.toInt.tmod q.word.toInt).natAbs < q.word.toInt.natAbs := by
    rw [Int.natAbs_tmod]
    exact Nat.mod_lt _ (by omega)
  unfold IsInline anyIntMin anyIntMax at hq ⊢
  omega

/-- The block of an arithmetic operator gives the tagged result exactly where it is inline. -/
theorem computeBlock_arithmetic {op : BinOp} (hop : isArithmetic op = true) :
    computeBlock op p.word q.word = .ok ((resultOf op p.word.toInt q.word.toInt).bind fun z =>
      if IsInline z then some (tagged (BitVec.ofInt 64 z)) else none) := by
  cases op with
  | add => simp only [computeBlock, resultOf, Option.bind_some, tagged_exact add_exact]
  | sub => simp only [computeBlock, resultOf, Option.bind_some, tagged_exact sub_exact]
  | mul => simp only [computeBlock, resultOf, Option.bind_some, mul_exact]
  | div =>
    simp only [computeBlock, resultOf, toInt_eq_zero_iff]
    by_cases hzero : q.word = 0
    · rw [if_pos hzero, if_pos hzero]
      rfl
    · rw [if_neg hzero, if_neg hzero, sdivInst_eq hzero, Option.bind_some]
      simp only [Except.map, tagged_exact sdiv_exact]
  | mod =>
    simp only [computeBlock, resultOf, toInt_eq_zero_iff]
    by_cases hzero : q.word = 0
    · rw [if_pos hzero, if_pos hzero]
      rfl
    · rw [if_neg hzero, if_neg hzero, sremInst, if_neg hzero, Option.bind_some,
        if_pos (srem_small hzero), ← BitVec.toInt_srem, BitVec.ofInt_toInt]
      rfl
  | _ => cases hop

theorem computeBlock_compared {op : BinOp} {b : Bool} {vl vr : Word} (h : compared? op vl vr = some b) :
    computeBlock op vl vr = .ok (some (boolWord b)) := by
  cases op <;> cases h <;> rfl

end Compute

section Generic

variable {W : Type} {rt : AnyRuntime W} {l r v : Word} {w : W}

theorem isActiveObject_int (h : v &&& tagMask = tagInt) : isActiveObject rt w v = false := by
  have hne : (v &&& 7 == 0) = false := by
    rw [show v &&& 7 = tagInt from h]
    rfl
  rw [isActiveObject, hne, Bool.and_false, Bool.false_and]

theorem anyIsStr_int (h : v &&& tagMask = tagInt) : anyIsStr v = false := by
  have hlow : v &&& 1 = 0 := by
    have hmask : v &&& 1 = (v &&& tagMask) &&& 1 := by
      rw [BitVec.and_assoc]
      rfl
    rw [hmask, h]
    rfl
  rw [anyIsStr, hlow]
  rfl

theorem anyIsFloat_int (h : v &&& tagMask = tagInt) : anyIsFloat rt w v = false := by
  rw [anyIsFloat, isActiveObject_int h, Bool.false_and]

theorem anyIsList_int (h : v &&& tagMask = tagInt) : anyIsList rt w v = false := by
  rw [anyIsList, isActiveObject_int h, Bool.false_and]

theorem oliveUnboxInt_int (h : v &&& tagMask = tagInt) :
    oliveUnboxInt rt v w = (v.sshiftRight 3, w) :=
  if_pos (.inl h)

theorem onInts_int {op : Word → Word → Word} (hl : l &&& tagMask = tagInt)
    (hr : r &&& tagMask = tagInt) :
    onInts rt op l r w = oliveBoxInt rt (op (l.sshiftRight 3) (r.sshiftRight 3)) w := by
  simp only [onInts, unboxed, oliveUnboxInt_int hl, oliveUnboxInt_int hr]

theorem byDivisor_int {op : Word → Word → Word} (hl : l &&& tagMask = tagInt)
    (hr : r &&& tagMask = tagInt) (hne : r.sshiftRight 3 ≠ 0) :
    byDivisor rt op l r w = oliveBoxInt rt (op (l.sshiftRight 3) (r.sshiftRight 3)) w := by
  simp only [byDivisor, oliveUnboxInt_int hr, oliveUnboxInt_int hl, if_neg hne]

theorem anyCmp_int {texts : List Char → List Char → Bool} {floats ints : Word → Word → Bool}
    (hl : l &&& tagMask = tagInt) (hr : r &&& tagMask = tagInt) :
    anyCmp rt texts floats ints l r w =
      (boolWord (ints (l.sshiftRight 3) (r.sshiftRight 3)), w) := by
  simp only [anyCmp, anyIsStr_int hl, anyIsFloat_int hl, anyIsFloat_int hr, unboxed,
    oliveUnboxInt_int hl, oliveUnboxInt_int hr, Bool.false_and, Bool.or_false, Bool.false_eq_true,
    if_false]

/-- The generic helper on two inline integers: the boxed result, for a divisor that is not zero. -/
theorem oliveAny_arithmetic {op : BinOp} {inner : Word → Word → W → Word × W} {z : Int}
    (hinner : oliveAny rt op = some inner) (hl : l &&& tagMask = tagInt)
    (hr : r &&& tagMask = tagInt)
    (hz : resultOf op (payload l).word.toInt (payload r).word.toInt = some z) (hsmall : IsInline z) :
    inner l r w = (tagged (BitVec.ofInt 64 z), w) := by
  have hbox {raw : Word} (hraw : raw.toInt = z) :
      oliveBoxInt rt raw w = (tagged (BitVec.ofInt 64 z), w) := by
    rw [← hraw, BitVec.ofInt_toInt]
    exact if_pos (by rwa [hraw])
  have hdivisor (hne : (payload r).word.toInt ≠ 0) : r.sshiftRight 3 ≠ 0 :=
    fun h0 => hne (toInt_eq_zero_iff.mpr h0)
  cases op with
  | add =>
    obtain rfl := Option.some.inj hinner
    simp only [oliveAnyAdd, anyIsStr_int hl, anyIsStr_int hr, anyIsFloat_int hl, anyIsFloat_int hr,
      anyIsList_int hl, Bool.or_false, Bool.false_and, Bool.false_eq_true, if_false]
    rw [onInts_int hl hr]
    exact hbox ((add_exact (p := payload l) (q := payload r)).trans (Option.some.inj hz))
  | sub =>
    obtain rfl := Option.some.inj hinner
    simp only [oliveAnySub, anyArith, anyIsFloat_int hl, anyIsFloat_int hr, Bool.or_false,
      Bool.false_eq_true, if_false]
    rw [onInts_int hl hr]
    exact hbox ((sub_exact (p := payload l) (q := payload r)).trans (Option.some.inj hz))
  | mul =>
    obtain rfl := Option.some.inj hinner
    simp only [oliveAnyMul, anyArith, anyIsFloat_int hl, anyIsFloat_int hr, Bool.or_false,
      Bool.false_eq_true, if_false]
    rw [onInts_int hl hr]
    obtain rfl := Option.some.inj hz
    apply hbox
    unfold IsInline anyIntMin anyIntMax at hsmall
    exact (BitVec.toInt_mul _ _).trans (Int.bmod_eq_of_le
      (show -2 ^ 63 ≤ (payload l).word.toInt * (payload r).word.toInt by omega)
      (show (payload l).word.toInt * (payload r).word.toInt < 2 ^ 63 by omega))
  | div =>
    obtain rfl := Option.some.inj hinner
    obtain ⟨hne, hz⟩ := Option.ite_none_left_eq_some.mp hz
    simp only [oliveAnyDiv, anyIsFloat_int hl, anyIsFloat_int hr, Bool.or_false, Bool.false_eq_true,
      if_false]
    rw [byDivisor_int hl hr (hdivisor hne)]
    exact hbox ((sdiv_exact (p := payload l) (q := payload r)).trans (Option.some.inj hz))
  | mod =>
    obtain rfl := Option.some.inj hinner
    obtain ⟨hne, hz⟩ := Option.ite_none_left_eq_some.mp hz
    simp only [oliveAnyMod, anyIsFloat_int hl, anyIsFloat_int hr, Bool.or_false, Bool.false_eq_true,
      if_false]
    rw [byDivisor_int hl hr (hdivisor hne)]
    exact hbox ((BitVec.toInt_srem _ _).trans (Option.some.inj hz))
  | _ => cases hz

theorem oliveAny_compared {op : BinOp} {inner : Word → Word → W → Word × W} {b : Bool}
    (hinner : oliveAny rt op = some inner) (hl : l &&& tagMask = tagInt)
    (hr : r &&& tagMask = tagInt)
    (hb : compared? op (l.sshiftRight 3) (r.sshiftRight 3) = some b) :
    inner l r w = (boolWord b, w) := by
  cases op with
  | lt | ltEq | gt | gtEq | eq | notEq =>
    obtain rfl := Option.some.inj hinner
    obtain rfl := Option.some.inj hb
    exact anyCmp_int hl hr
  | _ => cases hb

end Generic

section Agree

variable {W : Type} {rt : AnyRuntime W} {l r : Word}

/-- The fast block of an arithmetic operator goes on exactly where both words are inline integers and
the exact result is one. -/
theorem fastPath_arithmetic_iff {op : BinOp} {x : Word} (hop : isArithmetic op = true) :
    fastPath op l r = .ok (some x) ↔ l &&& tagMask = tagInt ∧ r &&& tagMask = tagInt ∧
      ∃ z, resultOf op (payload l).word.toInt (payload r).word.toInt = some z ∧ IsInline z ∧
        x = tagged (BitVec.ofInt 64 z) := by
  unfold fastPath
  by_cases hboth : bothInt l r = true
  · obtain ⟨hl, hr⟩ := bothInt_iff.mp hboth
    have hblock := computeBlock_arithmetic (p := payload l) (q := payload r) hop
    rw [if_pos hboth]
    simp only [hl, hr, true_and]
    rw [show computeBlock op (l.sshiftRight 3) (r.sshiftRight 3) =
      computeBlock op (payload l).word (payload r).word from rfl, hblock, Except.ok.injEq,
      Option.bind_eq_some_iff]
    apply exists_congr
    intro z
    rw [Option.ite_none_right_eq_some, Option.some.injEq, eq_comm (a := x)]
  · rw [if_neg hboth]
    constructor
    · rintro ⟨⟩
    · rintro ⟨hl, hr, _⟩
      exact absurd (bothInt_iff.mpr ⟨hl, hr⟩) hboth

theorem tagged_eq_box {z : Int} {w : W} (h : IsInline z) :
    oliveBoxInt rt (BitVec.ofInt 64 z) w = (tagged (BitVec.ofInt 64 z), w) := by
  have hint : (BitVec.ofInt 64 z).toInt = z := by
    unfold IsInline anyIntMin anyIntMax at h
    rw [BitVec.toInt_ofInt]
    exact Int.bmod_eq_of_le (by omega) (by omega)
  apply if_pos
  rw [hint]
  exact h

/-- An operator that has a helper does arithmetic or compares. -/
theorem arithmetic_or_compared {op : BinOp} {inner : Word → Word → W → Word × W}
    (h : oliveAny rt op = some inner) (vl vr : Word) :
    isArithmetic op = true ∨ ∃ b, compared? op vl vr = some b := by
  cases op with
  | add | sub | mul | div | mod => exact .inl rfl
  | lt | ltEq | gt | gtEq | eq | notEq => exact .inr ⟨_, rfl⟩
  | _ => cases h

/-- The fast block does not trap, and what it goes on with is what the helper returns. -/
theorem fastPath_agrees {op : BinOp} {inner : Word → Word → W → Word × W}
    (h : oliveAny rt op = some inner) (l r : Word) (w : W) :
    fastPath op l r = .ok none ∨ ∃ x, fastPath op l r = .ok (some x) ∧ inner l r w = (x, w) := by
  by_cases hboth : bothInt l r = true
  · obtain ⟨hl, hr⟩ := bothInt_iff.mp hboth
    rcases arithmetic_or_compared h (l.sshiftRight 3) (r.sshiftRight 3) with hop | ⟨b, hb⟩
    · have hblock := computeBlock_arithmetic (p := payload l) (q := payload r) hop
      have hfast : fastPath op l r = .ok _ := (if_pos hboth).trans hblock
      cases hz : resultOf op (payload l).word.toInt (payload r).word.toInt with
      | none =>
        rw [hz] at hfast
        exact .inl hfast
      | some z =>
        rw [hz, Option.bind_some] at hfast
        by_cases hsmall : IsInline z
        · rw [if_pos hsmall] at hfast
          exact .inr ⟨_, hfast, oliveAny_arithmetic h hl hr hz hsmall⟩
        · rw [if_neg hsmall] at hfast
          exact .inl hfast
    · exact .inr ⟨_, (if_pos hboth).trans (computeBlock_compared hb), oliveAny_compared h hl hr hb⟩
  · exact .inl (if_neg hboth)

/-- Specialized code returns what the generic helper returns, from any state; on arithmetic it does so
without a call exactly where both words are inline integers whose result is one, and on any other
words it is the call. -/
theorem specialized_agrees {op : BinOp} {inner : Word → Word → W → Word × W}
    (h : oliveAny rt op = some inner) (l r : Word) (site : Nat) (w : W) :
    (∃ after, translateAnyBinopSpecialized rt op inner l r site w = .ok (inner l r w, after)) ∧
      (isArithmetic op = true → ∀ x, fastPath op l r = .ok (some x) ↔
        l &&& tagMask = tagInt ∧ r &&& tagMask = tagInt ∧
          ∃ z, resultOf op (payload l).word.toInt (payload r).word.toInt = some z ∧ IsInline z ∧
            oliveBoxInt rt (BitVec.ofInt 64 z) w = (x, w)) ∧
      (¬(l &&& tagMask = tagInt ∧ r &&& tagMask = tagInt) →
        translateAnyBinopSpecialized rt op inner l r site w =
          .ok (anyProfiled rt inner l r site w)) := by
  refine ⟨?_, ?_, ?_⟩
  · rcases fastPath_agrees h l r w with hfast | ⟨x, hfast, hx⟩
    · exact ⟨_, by rw [translateAnyBinopSpecialized, hfast]; rfl⟩
    · exact ⟨site, by rw [translateAnyBinopSpecialized, hfast, hx]; rfl⟩
  · intro hop x
    rw [fastPath_arithmetic_iff hop]
    apply and_congr_right
    intro hl
    apply and_congr_right
    intro hr
    apply exists_congr
    intro z
    apply and_congr_right
    intro hz
    apply and_congr_right
    intro hsmall
    rw [tagged_eq_box hsmall, Prod.mk.injEq, and_iff_left rfl]
    exact eq_comm
  · intro hnot
    have hfast : fastPath op l r = .ok none := if_neg fun hboth => hnot (bothInt_iff.mp hboth)
    rw [translateAnyBinopSpecialized, hfast]
    rfl

/-- A runtime whose heap is empty. -/
def emptyAny : AnyRuntime Unit where
  isLiveSlot _ _ := false
  kind _ _ := 0
  bits _ _ := 0
  heapBox _ _ w := (0x20000, w)
  strConcat a _ w := (a, w)
  listConcat a _ w := (a, w)
  text _ _ := []
  parseInt _ := 0
  parseFloat _ := 0
  pyToInt _ w := (0, w)
  pyToFloat _ w := (0, w)
  float := ⟨fun a _ => a, fun a _ => a, fun a _ => a, fun a _ => a, fun a b => a == b,
    fun _ _ => false, fun a b => a == b⟩
  floatRem a _ := a
  floatOfInt a := a
  intOfFloat a := a

/-- The smallest inline integer divided by -1: the quotient is boxed on the heap. -/
theorem specialized_agrees_minimum :
    (∃ after, translateAnyBinopSpecialized emptyAny .div (oliveAnyDiv emptyAny)
        (tagged (BitVec.ofInt 64 anyIntMin)) (tagged (-1)) 8 () =
      .ok (oliveAnyDiv emptyAny (tagged (BitVec.ofInt 64 anyIntMin)) (tagged (-1)) (), after)) ∧
    ∀ x, fastPath .div (tagged (BitVec.ofInt 64 anyIntMin)) (tagged (-1)) ≠ .ok (some x) := by
  have h := @specialized_agrees _ emptyAny .div _ rfl (tagged (BitVec.ofInt 64 anyIntMin))
    (tagged (-1)) 8 ()
  refine ⟨h.1, ?_⟩
  intro x hx
  obtain ⟨_, _, z, hz, hsmall, _⟩ := (h.2.1 rfl x).mp hx
  have hout : resultOf .div (payload (tagged (BitVec.ofInt 64 anyIntMin))).word.toInt
      (payload (tagged (-1))).word.toInt = some (2 ^ 60) := by decide
  rw [hout] at hz
  obtain rfl := Option.some.inj hz
  exact absurd hsmall (by decide)

end Agree

end AnyBinop

end Olive
