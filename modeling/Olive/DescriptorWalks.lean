import Olive.TypeDescriptor

/-! The walks of the runtime that a type descriptor steers: what each one reads of the descriptor, and
which values it visits where. -/

namespace Olive

/-- `byte as usize - bias`: past the data, or below the bias, there is no such number. -/
def readCount (bias : Nat) (desc : List UInt8) (pos : Nat) : Option Nat :=
  desc[pos]?.bind fun b => if bias ≤ b.toNat then some (b.toNat - bias) else none

/-- `skip_lp`, and what `read_lp` does to the position. -/
def skipLp (desc : List UInt8) (pos : Nat) : Option Nat :=
  (readCount 13 desc pos).map fun len => pos + 1 + len

/-- `for _ in 0..n`. -/
def repeatSkip (step : Nat → Option Nat) : Nat → Nat → Option Nat
  | 0, pos => some pos
  | n + 1, pos => (step pos).bind (repeatSkip step n)

/-- `skip`, as deep as the first argument. -/
def skipDepth (desc : List UInt8) : Nat → Nat → Option Nat
  | 0, _ => none
  | depth + 1, pos =>
    desc[pos]?.bind fun tag =>
      match tag with
      | 7 | 8 => skipDepth desc depth (pos + 1)
      | 9 => (skipDepth desc depth (pos + 1)).bind (skipDepth desc depth)
      | 10 => (readCount 1 desc (pos + 1)).bind fun n => repeatSkip (skipDepth desc depth) n (pos + 2)
      | 12 | 16 =>
        (skipLp desc (pos + 1)).bind fun pos =>
          (readCount 13 desc pos).bind fun n =>
            repeatSkip (fun pos => (skipLp desc pos).bind (skipDepth desc depth)) n (pos + 1)
      | 13 =>
        (skipLp desc (pos + 1)).bind fun pos =>
          (readCount 13 desc pos).bind fun n =>
            repeatSkip (fun pos => (skipLp desc pos).bind fun pos =>
              (readCount 13 desc pos).bind fun np => repeatSkip (skipDepth desc depth) np (pos + 1))
              n (pos + 1)
      | 14 => some (pos + 3)
      | _ => some (pos + 1)

/-- Each level of `skip` reads a byte of its own, so no skip is deeper than the data is long. -/
def skip (desc : List UInt8) : Nat → Option Nat := skipDepth desc desc.length

/-- A value as a walk finds it, unfolded: for `eq_val`, of a pair of words. -/
inductive Value (α : Type) where
  /-- A scalar, a null or freed pointer, or whatever else a walk does not enter. -/
  | word (w : α)
  /-- Met before on this walk; for `eq_val`, a pair of equal words as well. -/
  | met (w : α)
  /-- The elements of a list, set or tuple, or the fields of a struct. -/
  | items (vs : List (Value α))
  | entries (es : List (Value α × Value α))
  | variant (tag : Nat) (payload : List (Value α))

namespace Value

variable {α : Type}

def isMet : Value α → Bool
  | .met _ => true
  | _ => false

def items? : Value α → Option (List (Value α))
  | .items vs => some vs
  | _ => none

def pairs : Value α → List (Value α × Value α)
  | .entries es => es
  | _ => []

def variant? : Value α → Option (Nat × List (Value α))
  | .variant tag payload => some (tag, payload)
  | _ => none

end Value

/-- What a walk reads of a descriptor, and where. -/
inductive Seen (α : Type) where
  | enter (v : Value α) (pos : Nat) (tag : UInt8)
  | name (pos len : Nat)
  | count (pos n : Nat)

def Seen.pos {α : Type} : Seen α → Nat
  | .enter _ pos _ | .name pos _ | .count pos _ => pos

/-- A walk: what it has read, and the position it leaves, unless it runs off the data. -/
structure Walked (α : Type) where
  seen : List (Seen α)
  ends : Option Nat

namespace Walked

variable {α : Type}

def note (s : Seen α) (w : Walked α) : Walked α := ⟨s :: w.seen, w.ends⟩

def andThen (w : Walked α) (next : Nat → Walked α) : Walked α :=
  match w.ends with
  | some pos => ⟨w.seen ++ (next pos).seen, (next pos).ends⟩
  | none => w

/-- Goes on at `pos` without reading. -/
def goesTo (pos : Option Nat) : Walked α := ⟨[], pos⟩

end Walked

open Walked

/-- How the walks differ. -/
structure Walker where
  /-- Reads the offset of a back-reference and goes on there. -/
  followsBackrefs : Bool
  /-- Skips the descriptor of a value met before. -/
  skipsMet : Bool
  /-- Visits the elements of a list before it skips their descriptor. -/
  itemsFirst : Bool
  /-- Enters null structs and tuples, as if their fields were null. -/
  entersNull : Bool
  entersShared : Bool
  /-- Visits every payload the descriptor has, null when the value has fewer. -/
  padsPayload : Bool
  visitsKeys : Bool
  /-- Elements, and values of dicts, are visited under these tags. -/
  entersItem : UInt8 → Bool
  entersEntry : UInt8 → Bool

def copyVal : Walker where
  followsBackrefs := true
  skipsMet := true
  itemsFirst := false
  entersNull := false
  entersShared := false
  padsPayload := false
  visitsKeys := true
  entersItem := fun _ => true
  entersEntry := fun _ => true

/-- `free_elems` and `elem_owns` leave out what they take to own nothing. -/
def freeVal : Walker where
  followsBackrefs := true
  skipsMet := false
  itemsFirst := false
  entersNull := false
  entersShared := true
  padsPayload := false
  visitsKeys := false
  entersItem := fun tag => decide (tag ∈ ([6, 4, 15, 7, 8, 10, 9, 12, 13] : List UInt8))
  entersEntry := fun tag => decide (tag ∈ ([6, 4, 14, 15, 7, 8, 10, 9, 12, 17, 13] : List UInt8))

def eqVal : Walker where
  followsBackrefs := true
  skipsMet := true
  itemsFirst := false
  entersNull := false
  entersShared := true
  padsPayload := false
  visitsKeys := true
  entersItem := fun _ => true
  entersEntry := fun _ => true

def hashVal : Walker := eqVal

/-- `fmt` has no arm for back-references. -/
def fmtVal : Walker where
  followsBackrefs := false
  skipsMet := false
  itemsFirst := true
  entersNull := true
  entersShared := true
  padsPayload := true
  visitsKeys := true
  entersItem := fun _ => true
  entersEntry := fun _ => true

def walkers : List Walker := [copyVal, freeVal, eqVal, hashVal, fmtVal]

section Walks

variable {α : Type} (walker : Walker) (desc : List UInt8) (zero : α)

/-- The fields a walk visits, if it enters the value at all. -/
def Walker.opened (v : Value α) : Option (List (Value α)) :=
  match v.items? with
  | some vs => some vs
  | none => if walker.entersNull then some [] else none

/-- The item or field a walk visits at position `i`, null past the last one. -/
def Walker.part? (v : Value α) (i : Nat) : Option (Value α) :=
  (walker.opened v).map fun vs => vs.getD i (.word zero)

def Walker.field? (shared : Bool) (v : Value α) (i : Nat) : Option (Value α) :=
  if shared && !walker.entersShared then none else walker.part? zero v i

/-- What a walk visits as payload `j` of variant `i`. -/
def Walker.payload? (v : Value α) (i j : Nat) : Option (Value α) :=
  match v.variant? with
  | some (tag, payload) =>
    if i = tag ∧ (walker.padsPayload = true ∨ j < payload.length) then
      some (payload.getD j (.word zero))
    else none
  | none => none

/-- Visits a part, or passes over it. -/
def visitPart (part? : Option (Value α)) (visit : Value α → Walked α) (past : Option Nat) :
    Walked α :=
  match part? with
  | some part => visit part
  | none => goesTo past

def readName (pos : Nat) (next : Nat → Walked α) : Walked α :=
  match readCount 13 desc pos with
  | some len => note (.name pos len) (next (pos + 1 + len))
  | none => goesTo none

def readCounted (bias pos : Nat) (next : Nat → Nat → Walked α) : Walked α :=
  match readCount bias desc pos with
  | some n => note (.count pos n) (next n (pos + 1))
  | none => goesTo none

/-- `for i in 0..n`, from `i` on. -/
def forRange (body : Nat → Nat → Walked α) : Nat → Nat → Nat → Walked α
  | 0, _, pos => goesTo (some pos)
  | n + 1, i, pos => (body i pos).andThen (forRange body n (i + 1))

/-- Visits values one after another, all from the same position. -/
def visitAll (visits : List (Walked α)) : Walked α :=
  visits.foldr (fun w rest => w.andThen fun _ => rest) (goesTo (some 0))

def walkSeq (visit : Value α → Nat → Walked α) (v : Value α) (pos : Nat) : Walked α :=
  let visits : Walked α :=
    if (desc[pos]?).any walker.entersItem then
      visitAll ((v.items?.getD []).map fun item => visit item pos)
    else goesTo (some 0)
  if walker.itemsFirst then visits.andThen fun _ => goesTo (skip desc pos)
  else (goesTo (skip desc pos)).andThen fun ends => visits.andThen fun _ => goesTo (some ends)

def walkDict (visit : Value α → Nat → Walked α) (v : Value α) (pos : Nat) : Walked α :=
  (goesTo (skip desc pos)).andThen fun valStart =>
    (goesTo (skip desc valStart)).andThen fun ends =>
      (visitAll (v.pairs.map fun e =>
        (if walker.visitsKeys then visit e.1 pos else goesTo (some 0)).andThen fun _ =>
          if (desc[valStart]?).any walker.entersEntry then visit e.2 valStart
          else goesTo (some 0))).andThen fun _ => goesTo (some ends)

section Parts

variable (visit : Value α → Nat → Walked α)

def walkItem (v : Value α) (i pos : Nat) : Walked α :=
  visitPart (walker.part? zero v i) (fun part => visit part pos) (skip desc pos)

def walkField (shared : Bool) (v : Value α) (i pos : Nat) : Walked α :=
  readName desc pos fun pos =>
    visitPart (walker.field? zero shared v i) (fun part => visit part pos) (skip desc pos)

def walkPayload (v : Value α) (i j pos : Nat) : Walked α :=
  visitPart (walker.payload? zero v i j) (fun part => visit part pos) (skip desc pos)

def walkVariant (v : Value α) (i pos : Nat) : Walked α :=
  readName desc pos fun pos =>
    readCounted desc 13 pos fun np pos => forRange (walkPayload walker desc zero visit v i) np 0 pos

def walkTuple (v : Value α) (pos : Nat) : Walked α :=
  readCounted desc 1 pos fun n pos => forRange (walkItem walker desc zero visit v) n 0 pos

def walkStruct (shared : Bool) (v : Value α) (pos : Nat) : Walked α :=
  readName desc pos fun pos =>
    readCounted desc 13 pos fun n pos =>
      forRange (walkField walker desc zero visit shared v) n 0 pos

def walkEnum (v : Value α) (pos : Nat) : Walked α :=
  readName desc pos fun pos =>
    readCounted desc 13 pos fun n pos => forRange (walkVariant walker desc zero visit v) n 0 pos

end Parts

def walkBackref (visit : Nat → Walked α) (pos : Nat) : Walked α :=
  match desc[pos]?, desc[pos + 1]? with
  | some hi, some lo =>
    (visit ((hi.toNat <<< 8) ||| lo.toNat)).andThen fun _ => goesTo (some (pos + 2))
  | _, _ => goesTo none

/-- What a walk does once it has read the tag. -/
def walkNode (visit : Value α → Nat → Walked α) (v : Value α) (tag : UInt8) (pos : Nat) : Walked α :=
  match tag with
  | 7 | 8 => walkSeq walker desc visit v pos
  | 9 => walkDict walker desc visit v pos
  | 10 => walkTuple walker desc zero visit v pos
  | 12 => walkStruct walker desc zero visit false v pos
  | 16 => walkStruct walker desc zero visit true v pos
  | 13 => walkEnum walker desc zero visit v pos
  | _ => goesTo (some pos)

/-- A walk as deep as the first argument: `copy_val`, `free_val`, `eq_val`, `hash_val` or `fmt`. -/
def walk : Nat → Value α → Nat → Walked α
  | 0, _, _ => goesTo none
  | depth + 1, v, pos =>
    if walker.skipsMet && v.isMet then goesTo (skip desc pos)
    else
      match desc[pos]? with
      | none => goesTo none
      | some tag =>
        if tag = 14 ∧ walker.followsBackrefs = true then
          walkBackref desc (walk depth v) (pos + 1)
        else note (.enter v pos tag) (walkNode walker desc zero (walk depth) v tag (pos + 1))

end Walks

end Olive
