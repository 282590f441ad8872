import Mathlib.Algebra.BigOperators.Group.List.Basic
import Mathlib.Data.List.Basic
import Mathlib.Data.List.Count
import Mathlib.Data.UInt

/-! Character offsets and the positions of editors, which count UTF-16 units within a line. -/

namespace Olive

namespace Lsp

/-- `char::len_utf16`. -/
def lenUtf16 (c : Char) : UInt32 := if c.val ≤ 0xFFFF then 1 else 2

structure LspPosition where
  line : UInt32
  character : UInt32
deriving DecidableEq

/-- The order of the text. -/
def LspPosition.Before (p q : LspPosition) : Prop :=
  p.line < q.line ∨ p.line = q.line ∧ p.character < q.character

/-- `slice::binary_search` on ascending elements: the place of `x`, or where it belongs. -/
def binarySearch (xs : List Nat) (x : Nat) : Except Nat Nat :=
  let i := xs.countP (· < x)
  if xs[i]? = some x then .ok i else .error i

structure LineIndex where
  lineStarts : List Nat
  chars : List Char

/-- The starts of the lines that follow the newlines, where the first character has offset `k`. -/
def startsFrom (k : Nat) (chars : List Char) : List Nat :=
  (chars.zipIdx k).filterMap fun c => if c.1 = '\n' then some (c.2 + 1) else none

namespace LineIndex

def new (source : String) : LineIndex := ⟨0 :: startsFrom 0 source.toList, source.toList⟩

variable (self : LineIndex)

def lineOf (offset : Nat) : Nat :=
  match binarySearch self.lineStarts offset with
  | .ok i => i
  | .error i => i - 1

/-- `none` is a panic. -/
def toLsp (charOffset : Nat) : Option LspPosition := do
  let offset := min charOffset self.chars.length
  let line := self.lineOf offset
  let lineStart ← self.lineStarts[line]?
  if lineStart ≤ offset then
    let character := (((self.chars.take offset).drop lineStart).map lenUtf16).sum
    some ⟨.ofNat line, character⟩
  else none

/-- The loop over the characters of a line that starts at `offset`, `units` after its start. -/
def walk (character : UInt32) : List Char → UInt32 → Nat → Nat
  | [], _, offset => offset
  | c :: cs, units, offset =>
    if units < character then walk character cs (units + lenUtf16 c) (offset + 1) else offset

/-- `none` is a panic. -/
def toCharOffset (pos : LspPosition) : Option Nat := do
  let line := min pos.line.toNat (self.lineStarts.length - 1)
  let start ← self.lineStarts[line]?
  let stop := (self.lineStarts[line + 1]?.map (· - 1)).getD self.chars.length
  some (walk pos.character ((self.chars.take stop).drop start) 0 start)

end LineIndex

end Lsp

end Olive
