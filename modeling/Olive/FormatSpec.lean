import Olive.Numerals

/-! Format specs of integers: their parser, and the formatter of `i64` and of `u64` that reads them. -/

namespace Olive

namespace FormatSpec

structure Spec where
  fill : Char
  align : Option Char
  sign : Char
  alt : Bool
  zero : Bool
  width : Nat
  grouping : Option Char
  precision : Option Nat
  ty : Option Char
  deriving DecidableEq, Repr

def isAlign (c : Char) : Bool := c == '<' || c == '>' || c == '=' || c == '^'

def isSign (c : Char) : Bool := c == '+' || c == '-' || c == ' '

def isGrouping (c : Char) : Bool := c == ',' || c == '_'

def isAsciiDigit (c : Char) : Bool := '0' ≤ c && c ≤ '9'

/-- `parse().unwrap_or(0)` of digits. -/
def parseUsize (digits : List Char) : Nat :=
  let n := digits.foldl (fun n c => 10 * n + (c.toNat - '0'.toNat)) 0
  if n < 2 ^ 64 then n else 0

/-- The first character where it is of a kind. -/
def takeOne (p : Char → Bool) : List Char → Option Char × List Char
  | c :: chars => if p c then (some c, chars) else (none, c :: chars)
  | [] => (none, [])

/-- The fill, the alignment and what follows them. -/
def takeAlign : List Char → Char × Option Char × List Char
  | f :: a :: chars =>
    if isAlign a then (f, some a, chars)
    else if isAlign f then (' ', some f, a :: chars)
    else (' ', none, f :: a :: chars)
  | [a] => if isAlign a then (' ', some a, []) else (' ', none, [a])
  | [] => (' ', none, [])

/-- `Spec::parse`. -/
def parse (s : List Char) : Spec :=
  let (fill, align, chars) := takeAlign s
  let (sign, chars) := takeOne isSign chars
  let (alt, chars) := takeOne (· == '#') chars
  let (zero, chars) := takeOne (· == '0') chars
  let width := chars.takeWhile isAsciiDigit
  let (grouping, chars) := takeOne isGrouping (chars.dropWhile isAsciiDigit)
  let (dot, chars) := takeOne (· == '.') chars
  let precision := dot.map fun _ => parseUsize (chars.takeWhile isAsciiDigit)
  let chars := if dot.isSome then chars.dropWhile isAsciiDigit else chars
  let zeroAligns := zero.isSome && align.isNone
  { fill := if zeroAligns then '0' else fill
    align := if zeroAligns then some '=' else align
    sign := sign.getD '-'
    alt := alt.isSome
    zero := zero.isSome
    width := if width.isEmpty then 0 else parseUsize width
    grouping
    precision
    ty := chars.head? }

/-- The digits from the right, the next of which has the index `idx`. -/
def groupFrom (sep : Char) (size idx : Nat) : List Char → List Char
  | [] => []
  | c :: chars =>
    if 0 < idx ∧ idx % size = 0 then sep :: c :: groupFrom sep size (idx + 1) chars
    else c :: groupFrom sep size (idx + 1) chars

def groupDigits (digits : List Char) (sep : Char) (size : Nat) : List Char :=
  (groupFrom sep size 0 digits.reverse).reverse

def pad (body sign pre : List Char) (spec : Spec) : List Char :=
  let contentLen := sign.length + pre.length + body.length
  if spec.width ≤ contentLen then sign ++ pre ++ body else
  let fillCount := spec.width - contentLen
  let fill := List.replicate fillCount spec.fill
  match spec.align.getD '>' with
  | '<' => sign ++ pre ++ body ++ fill
  | '^' =>
    let left := fillCount / 2
    let lf := List.replicate left spec.fill
    let rf := List.replicate (fillCount - left) spec.fill
    lf ++ sign ++ pre ++ body ++ rf
  | '=' => sign ++ pre ++ fill ++ body
  | _ => fill ++ sign ++ pre ++ body

def signStr (neg : Bool) (spec : Spec) : List Char :=
  if neg then ['-'] else
  match spec.sign with
  | '+' => ['+']
  | ' ' => [' ']
  | _ => []

/-- `char::from_u32(v as u32)`, as the text of at most one character. -/
def fromU32 (v : Int) : List Char :=
  if (v % 2 ^ 32).toNat.isValidChar then [Char.ofNat (v % 2 ^ 32).toNat] else []

/-- The digits, the prefix and the size of the groups. -/
def magnitude (mag : Nat) (spec : Spec) : List Char × List Char × Nat :=
  match spec.ty with
  | some 'b' => (Nat.toDigits 2 mag, if spec.alt then ['0', 'b'] else [], 4)
  | some 'o' => (Nat.toDigits 8 mag, if spec.alt then ['0', 'o'] else [], 4)
  | some 'x' => (Nat.toDigits 16 mag, if spec.alt then ['0', 'x'] else [], 4)
  | some 'X' => ((Nat.toDigits 16 mag).map Char.toUpper, if spec.alt then ['0', 'X'] else [], 4)
  | _ => (Nat.toDigits 10 mag, [], 3)

def fmtSpecInt (v : Int) (spec : Spec) : List Char :=
  let neg := decide (v < 0)
  if spec.ty = some 'c' then pad (fromU32 v) [] [] spec else
  let (digits, pre, groupSize) := magnitude v.natAbs spec
  let digits := match spec.grouping with
    | some sep => groupDigits digits sep groupSize
    | none => digits
  pad digits (signStr neg spec) pre spec

def fmtSpecUint (v : Nat) (spec : Spec) : List Char :=
  if spec.ty = some 'c' then pad (fromU32 v) [] [] spec else
  let (digits, pre, groupSize) := magnitude v spec
  let digits := match spec.grouping with
    | some sep => groupDigits digits sep groupSize
    | none => digits
  pad digits (signStr false spec) pre spec

end FormatSpec

end Olive
