import Mathlib.Algebra.GroupWithZero.Nat
import Mathlib.Data.List.Sort

/-! The machine-applicable fixes of a pass: the edits of each file, and the text they make. -/

namespace Olive

namespace Fix

inductive Applicability where
  | machineApplicable
  | maybeIncorrect
deriving DecidableEq

/-- The span is a range of characters. -/
structure Suggestion where
  applicability : Applicability
  fileId : Nat
  start : UInt64
  stop : UInt64
  replacement : List Char

structure Diagnostic where
  code : Option String
  suggestions : List Suggestion

structure Edit where
  start : UInt64
  stop : UInt64
  replacement : List Char
  code : Option String
deriving DecidableEq

def usizeMax : UInt64 := -1

section Text

def utf8Len (cs : List Char) : Nat := (cs.map Char.utf8Size).sum

/-- The byte offset of each character, and of the end. -/
def byteOffsets (b : Nat) : List Char → List Nat
  | [] => [b]
  | c :: cs => b :: byteOffsets (b + c.utf8Size) cs

/-- `none` where no character starts at the byte. -/
def splitAtByte : List Char → Nat → Option (List Char × List Char)
  | [], b => if b = 0 then some ([], []) else none
  | c :: cs, b =>
    if b = 0 then some ([], c :: cs)
    else if c.utf8Size ≤ b then
      (splitAtByte cs (b - c.utf8Size)).map fun parts => (c :: parts.1, parts.2)
    else none

/-- `String::replace_range`; `none` is a panic. -/
def replaceRange (text : List Char) (start stop : Nat) (replacement : List Char) : Option (List Char) := do
  let before ← splitAtByte text start
  let behind ← splitAtByte text stop
  if start ≤ stop then some (before.1 ++ replacement ++ behind.2) else none

end Text

/-- The comparison of the sort: by falling start, then by falling end. -/
def Edit.NotBefore (a b : Edit) : Prop :=
  b.start < a.start ∨ a.start = b.start ∧ b.stop ≤ a.stop

instance : DecidableRel Edit.NotBefore := fun a b =>
  inferInstanceAs (Decidable (b.start < a.start ∨ a.start = b.start ∧ b.stop ≤ a.stop))

/-- The loop over the edits of a file. -/
structure Splice where
  text : List Char
  lastStart : UInt64
  applied : Nat
  codes : List String

def addCode (codes : List String) (code : Option String) : List String :=
  match code with
  | some c => if codes.contains c then codes else codes ++ [c]
  | none => codes

def applyEdit (byteAt : List Nat) (s : Splice) (edit : Edit) : Option Splice :=
  if edit.stop < edit.start ∨ s.lastStart < edit.stop then some s
  else
    match byteAt[edit.start.toNat]?, byteAt[edit.stop.toNat]? with
    | some start, some stop =>
      (replaceRange s.text start stop edit.replacement).map fun text =>
        ⟨text, edit.start, s.applied + 1, addCode s.codes edit.code⟩
    | _, _ => some s

/-- `none` is a panic. -/
def applyEdits (original : List Char) (edits : List Edit) (codes : List String) : Option Splice :=
  (edits.insertionSort Edit.NotBefore).foldlM (applyEdit (byteOffsets 0 original))
    ⟨original, usizeMax, 0, codes⟩

def fileEdits (diagnostics : List Diagnostic) (firstParty : Nat → Bool) (file : Nat) : List Edit :=
  diagnostics.flatMap fun diag => diag.suggestions.filterMap fun sug =>
    if sug.applicability = .machineApplicable ∧ firstParty sug.fileId = true ∧ sug.fileId = file then
      some ⟨sug.start, sug.stop, sug.replacement, diag.code⟩
    else none

structure Pass where
  applied : Nat
  codes : List String
  changed : List String
  written : List (String × List Char)

inductive Failure where
  | panicked
  | writeFailed (path : String)

/-- Paths and texts of the sources, which of them are first-party, and the paths that can be written. -/
structure Files where
  sources : Nat → Option (String × List Char)
  firstParty : Nat → Bool
  writable : String → Bool

def fixFile (files : Files) (diagnostics : List Diagnostic) (dryRun : Bool) (pass : Pass) (file : Nat) :
    Except Failure Pass :=
  match files.sources file with
  | none => .ok pass
  | some (path, original) =>
    match applyEdits original (fileEdits diagnostics files.firstParty file) pass.codes with
    | none => .error .panicked
    | some s =>
      if s.applied = 0 then .ok { pass with codes := s.codes }
      else if dryRun then
        .ok ⟨pass.applied + s.applied, s.codes, pass.changed ++ [path], pass.written⟩
      else if files.writable path then
        .ok ⟨pass.applied + s.applied, s.codes, pass.changed ++ [path],
          pass.written ++ [(path, s.text)]⟩
      else .error (.writeFailed path)

/-- `order` is the order in which the map yields the files that have edits. -/
def fixPass (files : Files) (diagnostics : List Diagnostic) (dryRun : Bool) (order : List Nat) :
    Except Failure Pass :=
  order.foldlM (fixFile files diagnostics dryRun) ⟨0, [], [], []⟩

end Fix

end Olive
