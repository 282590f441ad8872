import Mathlib.Algebra.Group.Int.Defs
import Mathlib.Data.List.Basic
import Mathlib.Data.List.Infix

/-! The methods of `str` that the string runtime calls, on the scalar values of a text, and the
bounds of a slice. -/

namespace Olive

namespace StrMethods

/-- The tables of Unicode that the standard library consults. -/
structure Unicode where
  isWhitespace : Char → Bool
  isAlphabetic : Char → Bool
  toUppercase : Char → List Char
  toLowercase : Char → List Char
  strToLowercase : List Char → List Char
  graphemes : List Char → List (List Char)

/-- `split` by a pattern that is not empty; `skip` characters are left of a match. -/
def splitBy (pat : List Char) : Nat → List Char → List Char → List (List Char)
  | _, part, [] => [part.reverse]
  | skip + 1, part, _ :: text => splitBy pat skip part text
  | 0, part, c :: text =>
    if pat.isPrefixOf (c :: text) then part.reverse :: splitBy pat (pat.length - 1) [] text
    else splitBy pat 0 (c :: part) text

/-- `split`. An empty pattern matches at every boundary. -/
def split (pat text : List Char) : List (List Char) :=
  if pat.isEmpty then [] :: (text.map fun c => [c]) ++ [[]] else splitBy pat 0 [] text

def joinText (sep : List Char) (parts : List (List Char)) : List Char :=
  (parts.intersperse sep).flatten

def replace (pat into text : List Char) : List Char :=
  joinText into (split pat text)

def find (pat : List Char) : List Char → Option Nat
  | [] => if pat.isEmpty then some 0 else none
  | c :: text =>
    if pat.isPrefixOf (c :: text) then some 0 else (find pat text).map (· + 1)

def trimStartMatches (p : Char → Bool) (text : List Char) : List Char :=
  text.dropWhile p

def trimEndMatches (p : Char → Bool) (text : List Char) : List Char :=
  (text.reverse.dropWhile p).reverse

def trimMatches (p : Char → Bool) (text : List Char) : List Char :=
  trimEndMatches p (trimStartMatches p text)

def splitWhitespace (u : Unicode) : List Char → List Char → List (List Char)
  | part, [] => if part.isEmpty then [] else [part.reverse]
  | part, c :: text =>
    if u.isWhitespace c then
      if part.isEmpty then splitWhitespace u [] text else part.reverse :: splitWhitespace u [] text
    else splitWhitespace u (c :: part) text

/-- `lines`: a line ends at a line feed, with the carriage return before it. -/
def lines : List Char → List Char → List (List Char)
  | part, [] => if part.isEmpty then [] else [part.reverse]
  | part, c :: text =>
    if c = '\n' then (if part.head? = some '\r' then part.tail else part).reverse :: lines [] text
    else lines (c :: part) text

def repeatText (text : List Char) (n : Nat) : List Char :=
  (List.replicate n text).flatten

def toUppercase (u : Unicode) (text : List Char) : List Char :=
  text.flatMap u.toUppercase

/-- `olive_str_title`, with `prev_alpha`. -/
def title (u : Unicode) : Bool → List Char → List Char
  | _, [] => []
  | prevAlpha, c :: text =>
    if u.isAlphabetic c then
      (if prevAlpha then u.toLowercase c else u.toUppercase c) ++ title u true text
    else c :: title u false text

def capitalize (u : Unicode) : List Char → List Char
  | [] => []
  | first :: rest => u.toUppercase first ++ u.strToLowercase rest

def zfill (width : Int) (text : List Char) : List Char :=
  let (sign, rest) := match text with
    | '-' :: rest => (['-'], rest)
    | '+' :: rest => (['+'], rest)
    | rest => ([], rest)
  let total := sign.length + rest.length
  if width.toNat ≤ total then text
  else sign ++ List.replicate (width.toNat - total) '0' ++ rest

def fillChar (fill : List Char) : Char :=
  fill.head?.getD ' '

def ljust (width : Int) (fill text : List Char) : List Char :=
  text ++ List.replicate (width - text.length).toNat (fillChar fill)

def rjust (width : Int) (fill text : List Char) : List Char :=
  List.replicate (width - text.length).toNat (fillChar fill) ++ text

def center (width : Int) (fill text : List Char) : List Char :=
  let totalPad := (width - text.length).toNat
  let left := totalPad / 2
  List.replicate left (fillChar fill) ++ text ++ List.replicate (totalPad - left) (fillChar fill)

def removeprefix (pat text : List Char) : List Char :=
  if pat.isPrefixOf text then text.drop pat.length else text

def removesuffix (pat text : List Char) : List Char :=
  if pat.isSuffixOf text then text.take (text.length - pat.length) else text

def partition (pat text : List Char) : List (List Char) :=
  match pat.isEmpty, find pat text with
  | false, some idx => [text.take idx, pat, text.drop (idx + pat.length)]
  | _, _ => [text, [], []]

/-- The operands of a slice. -/
structure Slice where
  start : Int
  stop : Int
  step : Int
  hasStart : Bool
  hasStop : Bool
  hasStep : Bool

/-- `slice_bounds`, none where it aborts on a step of zero. -/
def sliceBounds (len : Int) (s : Slice) : Option (Int × Int × Int) :=
  let step := if s.hasStep then s.step else 1
  if step = 0 then none
  else
    let lower := if step < 0 then -1 else 0
    let upper := if step < 0 then len - 1 else len
    let clamp := fun v : Int =>
      if v < 0 then max (v + len) lower else min v upper
    let start := if s.hasStart then clamp s.start else if step < 0 then upper else lower
    let stop := if s.hasStop then clamp s.stop else if step < 0 then lower else upper
    some (start, stop, step)

/-- The walk of `slice_indices`, none where the index leaves a machine word. -/
def sliceWalk (stop step : Int) : Nat → Int → Option (List Int)
  | 0, _ => some []
  | fuel + 1, i =>
    if (0 < step ∧ i < stop) ∨ (step < 0 ∧ stop < i) then
      if -2 ^ 63 ≤ i + step ∧ i + step < 2 ^ 63 then
        (sliceWalk stop step fuel (i + step)).map (i :: ·)
      else none
    else some []

/-- The elements that a slice selects, none where the runtime aborts. -/
def sliceOf {α : Type} (items : List α) (s : Slice) : Option (List α) :=
  (sliceBounds items.length s).bind fun (start, stop, step) =>
    if step = 1 then some ((items.take stop.toNat).drop start.toNat)
    else
      (sliceWalk stop step (items.length + 1) start).bind fun idxs =>
        idxs.mapM fun i => if i < 0 then none else items[i.toNat]?

example : sliceOf "héllo".toList ⟨0, -1, 1, true, true, true⟩ = some "héll".toList := by decide

example : sliceOf "abcdef".toList ⟨3, 0, -1, true, false, true⟩ = some "dcba".toList := by decide

end StrMethods

end Olive
