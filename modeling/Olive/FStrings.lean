import Olive.CivilTime

/-! The parser of f-strings: literal text and the fields between braces, each read by a lexer and a
parser of its own. -/

namespace Olive

namespace FStrings

open CivilTime (isWhitespace)

structure Token where
  value : List Char
  fileId : Nat
  line : Nat
  col : Nat
  span : Nat × Nat

structure Span where
  fileId : Nat
  line : Nat
  col : Nat
  start : Nat
  stop : Nat
  deriving DecidableEq

structure ParseError where
  message : String
  line : Nat
  col : Nat
  start : Nat
  stop : Nat
  deriving DecidableEq

structure FStrPart (E : Type) where
  expr : E
  spec : Option (List Char)
  deriving DecidableEq

/-- What a field is read with: the lexer, the parser with the tokens it leaves, and which of these
are the end of the field. -/
structure SubParser (E T : Type) where
  str : List Char → Span → E
  tokenise : List Char → Nat → Except String (List T)
  parseExpr : List T → Except String (E × List T)
  atEof : List T → Bool

def Token.spanOf (tok : Token) : Span :=
  ⟨tok.fileId, tok.line, tok.col, tok.span.1, tok.span.2⟩

def errAt (tok : Token) (message : String) : ParseError :=
  ⟨message, tok.line, tok.col, tok.span.1, tok.span.2⟩

def trimStart (text : List Char) : List Char := text.dropWhile isWhitespace

def trimEnd (text : List Char) : List Char := (text.reverse.dropWhile isWhitespace).reverse

def trim (text : List Char) : List Char := trimStart (trimEnd text)

/-- `replace` of the doubled character by the character. -/
def undouble (c : Char) : List Char → List Char
  | a :: b :: text => if a = c ∧ b = c then c :: undouble c text else a :: undouble c (b :: text)
  | text => text

/-- The characters up to the brace that brings the count to zero, and the count at the end. -/
def braceScan : Nat → List Char → List Char × Nat × List Char
  | 0, text => ([], 0, text)
  | count, [] => ([], count, [])
  | count + 1, c :: text =>
    let count := if c = '{' then count + 2 else if c = '}' then count else count + 1
    let (taken, count, text) := braceScan count text
    (c :: taken, count, text)

theorem braceScan_taken (count : Nat) (text : List Char) :
    (braceScan count text).1 ++ (braceScan count text).2.2 = text := by
  induction text generalizing count with
  | nil => cases count <;> rfl
  | cons c text ih =>
    cases count with
    | zero => rfl
    | succ count => exact congrArg (c :: ·) (ih _)

theorem braceScan_zero (text : List Char) : braceScan 0 text = ([], 0, text) := by
  cases text <;> rfl

/-- The part before the first colon outside brackets, and the part behind it. -/
def splitFrom (depth : Int) : List Char → List Char × Option (List Char)
  | [] => ([], none)
  | c :: text =>
    if c = '(' ∨ c = '[' ∨ c = '{' then
      let (expr, spec) := splitFrom (depth + 1) text
      (c :: expr, spec)
    else if c = ')' ∨ c = ']' ∨ c = '}' then
      let (expr, spec) := splitFrom (depth - 1) text
      (c :: expr, spec)
    else if c = ':' ∧ depth = 0 then ([], some text)
    else
      let (expr, spec) := splitFrom depth text
      (c :: expr, spec)

def splitFstringSpec (field : List Char) : List Char × Option (List Char) := splitFrom 0 field

/-- The debug form `expr=`: the text to print and the expression before the sign. -/
def debugForm (exprStr : List Char) : Option (List Char × List Char) :=
  let trimmedEnd := trimEnd exprStr
  let before := trimmedEnd.dropLast
  if trimmedEnd.getLast? = some '=' ∧ ¬(trim before).isEmpty ∧
      ¬(before.getLast? = some '=' ∨ before.getLast? = some '!' ∨
        before.getLast? = some '<' ∨ before.getLast? = some '>') then
    some (trimmedEnd, before)
  else none

section Parser

variable {E T : Type} (sub : SubParser E T) (tok : Token)

/-- The literal text since the last field. -/
def pushText (raw : List Char) (exprs : List (FStrPart E)) : List (FStrPart E) :=
  if raw.isEmpty then exprs else
  let s := undouble '}' (undouble '{' raw)
  if s.isEmpty then exprs else exprs ++ [⟨sub.str s tok.spanOf, none⟩]

/-- The field between the positions `startExpr` and `i`, the closing brace included. -/
def parseField (startExpr i : Nat) (field : List Char) (exprs : List (FStrPart E)) :
    Except ParseError (List (FStrPart E)) :=
  let (exprStr, spec) := splitFstringSpec field
  if (trim exprStr).isEmpty then .error (errAt tok "empty expression in f-string") else
  let (exprs, exprStr) : List (FStrPart E) × List Char := match debugForm exprStr with
    | some (trimmedEnd, before) => (exprs ++ [⟨sub.str trimmedEnd tok.spanOf, none⟩], before)
    | none => (exprs, exprStr)
  match sub.tokenise exprStr tok.fileId with
  | .error message =>
    .error ⟨"lexer error in f-string: " ++ message, tok.line, tok.col,
      tok.span.1 + startExpr, tok.span.1 + i⟩
  | .ok tokens =>
    match sub.parseExpr tokens with
    | .error message =>
      .error ⟨"parser error in f-string: " ++ message, tok.line, tok.col,
        tok.span.1 + startExpr, tok.span.1 + i⟩
    -- The tokens that are left are not looked at.
    | .ok (expr, _) => .ok (exprs ++ [⟨expr, spec⟩])

/-- The loop at the position `i`, with the raw text since the last field and the characters left. -/
def scan (i : Nat) (raw : List Char) (exprs : List (FStrPart E)) :
    List Char → Except ParseError (List (FStrPart E))
  | [] => .ok (pushText sub tok raw exprs)
  | c :: chars =>
    if c = '{' then
      if chars.head? = some '{' then scan (i + 2) (raw ++ ['{', '{']) exprs chars.tail
      else
        let scanned := braceScan 1 chars
        let stop := i + 1 + scanned.1.length
        if 0 < scanned.2.1 then .error (errAt tok "unclosed '\x7b' in f-string") else
        match parseField sub tok (i + 1) stop scanned.1.dropLast (pushText sub tok raw exprs) with
        | .error e => .error e
        | .ok exprs => scan stop [] exprs scanned.2.2
    else if c = '}' then
      if chars.head? = some '}' then scan (i + 2) (raw ++ ['}', '}']) exprs chars.tail
      else .error (errAt tok "single '\x7d' not allowed in f-string")
    else scan (i + 1) (raw ++ [c]) exprs chars
termination_by chars => chars.length
decreasing_by
  · simp only [List.length_cons, List.length_tail]
    omega
  · have hlen := congrArg List.length (braceScan_taken 1 chars)
    simp only [List.length_append] at hlen
    simp only [List.length_cons]
    omega
  · simp only [List.length_cons, List.length_tail]
    omega
  · simp only [List.length_cons]
    omega

theorem scan_nil (i : Nat) (raw : List Char) (exprs : List (FStrPart E)) :
    scan sub tok i raw exprs [] = .ok (pushText sub tok raw exprs) := by
  rw [scan]

/-- The parts of the f-string and its span. -/
def parseFstring : Except ParseError (List (FStrPart E) × Span) :=
  match scan sub tok 0 [] [] tok.value with
  | .error e => .error e
  | .ok exprs => .ok (exprs, tok.spanOf)

end Parser

end FStrings

end Olive
