import Mathlib.Data.List.Forall2
import Mathlib.Data.Multiset.MapFold
import Olive.Ir

/-! Values in live slots, seen through type descriptors. -/

namespace Olive

/-- What a walk reads from a descriptor, without the names: the tags of `format.rs`, with the leaves
that are compared as words in one. A back-reference holds the offset it goes back to. -/
inductive Shape where
  | leaf
  | str
  | any
  | list (item : Shape)
  | set (item : Shape)
  | tuple (items : List Shape)
  | dict (key value : Shape)
  | struct (fields : List Shape)
  | enum (variants : List (List Shape))
  | backref (target : Nat)

/-- A live slot: `StableVec`, `OliveHashSet`, `OliveObj`, a struct, `OliveEnum`, `OliveBoxed`, or
anything else. -/
inductive SlotContents where
  | vec (items : List Word)
  | hashSet (items : List Word)
  | obj (entries : List (Word × Word))
  | struct (fields : List Word)
  | enum (tag : Word) (payload : List Word)
  | boxed (kind bits : Word)
  | other
  deriving DecidableEq

structure TypedHeap where
  slots : List (Word × SlotContents)
  /-- `olive_str_to_bytes`. -/
  text : Word → List UInt8
  /-- `olive_any_eq`. -/
  anyEq : Word → Word → Bool
  /-- The part of the descriptor at an offset. -/
  shapes : Nat → Shape

namespace TypedHeap

variable (h : TypedHeap)

/-- What is at `w` if `w` is the body of a live slot. -/
def find (w : Word) : Option SlotContents := if w = 0 then none else h.slots.lookup w

/-- The first `n` words, with 0 for those that are not there. -/
def padded (n : Nat) (words : List Word) : List Word := (words ++ List.replicate n 0).take n

/-- The parts of a value whose number and order its type gives. -/
def parts : Shape → SlotContents → Option (List (Shape × Word))
  | .list item, .vec items => some (items.map fun w => (item, w))
  | .tuple shapes, .vec items => some (shapes.zip (padded shapes.length items))
  | .struct shapes, .struct fields => some (shapes.zip (padded shapes.length fields))
  | _, _ => none

def payloadShapes (variants : List (List Shape)) (tag : Word) : List Shape :=
  (variants[tag.toNat]?).getD []

/-- The values whose parts are values of their types again, if `T` says so of the parts. The null
value is a value of any type. -/
def Holds (T : Shape → Word → Prop) : Shape → Word → Prop
  | .leaf, _ | .str, _ | .any, _ => True
  | .set item, w => ∀ o, h.find w = some o → ∃ items, o = .hashSet items ∧ ∀ v ∈ items, T item v
  | .dict key value, w => ∀ o, h.find w = some o → ∃ entries, o = .obj entries ∧
      ∀ e ∈ entries, T key e.1 ∧ T value e.2
  | .enum variants, w => ∀ o, h.find w = some o → ∃ tag payload, o = .enum tag payload ∧
      payload.length = (payloadShapes variants tag).length ∧
      ∀ p ∈ (payloadShapes variants tag).zip payload, T p.1 p.2
  | .backref target, w => (∀ t, h.shapes target ≠ .backref t) ∧ T (h.shapes target) w
  | s, w => ∀ o, h.find w = some o → ∃ items, parts s o = some items ∧ ∀ p ∈ items, T p.1 p.2

/-- A typing of the words of a heap, which may have sharing and cycles. -/
def WellTyped (T : Shape → Word → Prop) : Prop := ∀ s w, T s w → h.Holds T s w

end TypedHeap

/-- A value without cycles, with the word at each node. A list, a set, an enum and so on that is in
no live slot is gone. -/
inductive Tree where
  | word (w : Word)
  | gone (w : Word) (isEnum : Bool)
  | str (w : Word) (bytes : List UInt8)
  | any (w : Word)
  | seq (w : Word) (items : List Tree)
  | bag (w : Word) (items : List Tree)
  | variant (w tag : Word) (payload : List Tree)

def Shape.isAggregate : Shape → Bool
  | .leaf | .str | .any | .backref _ => false
  | _ => true

def Shape.isEnum : Shape → Bool
  | .enum _ => true
  | _ => false

/-- The tree of a word, when there is no cycle below it. -/
inductive Unfolds (h : TypedHeap) : Shape → Word → Tree → Prop
  | leaf (w : Word) : Unfolds h .leaf w (.word w)
  | null : Unfolds h .str 0 (.word 0)
  | str {w : Word} (hw : w ≠ 0) : Unfolds h .str w (.str w (h.text w))
  | any (w : Word) : Unfolds h .any w (.any w)
  | backref {target : Nat} {w : Word} {t : Tree} (ht : Unfolds h (h.shapes target) w t) :
      Unfolds h (.backref target) w t
  | gone {s : Shape} {w : Word} (hs : s.isAggregate) (hw : h.find w = none) :
      Unfolds h s w (.gone w s.isEnum)
  | seq {s : Shape} {w : Word} {o : SlotContents} {items : List (Shape × Word)}
      (hw : h.find w = some o) (hitems : TypedHeap.parts s o = some items)
      (tree : Shape × Word → Tree) (ht : ∀ p ∈ items, Unfolds h p.1 p.2 (tree p)) :
      Unfolds h s w (.seq w (items.map tree))
  | set {item : Shape} {w : Word} {items : List Word} (hw : h.find w = some (.hashSet items))
      (tree : Word → Tree) (ht : ∀ v ∈ items, Unfolds h item v (tree v)) :
      Unfolds h (.set item) w (.bag w (items.map tree))
  | dict {key value : Shape} {w : Word} {entries : List (Word × Word)}
      (hw : h.find w = some (.obj entries)) (keyTree valueTree : Word → Tree)
      (hk : ∀ e ∈ entries, Unfolds h key e.1 (keyTree e.1))
      (hv : ∀ e ∈ entries, Unfolds h value e.2 (valueTree e.2)) :
      Unfolds h (.dict key value) w
        (.bag w (entries.map fun e => .seq 0 [keyTree e.1, valueTree e.2]))
  | enum {variants : List (List Shape)} {w tag : Word} {payload : List Word}
      (hw : h.find w = some (.enum tag payload))
      (hlen : payload.length = (TypedHeap.payloadShapes variants tag).length)
      (tree : Shape × Word → Tree)
      (ht : ∀ p ∈ (TypedHeap.payloadShapes variants tag).zip payload, Unfolds h p.1 p.2 (tree p)) :
      Unfolds h (.enum variants) w
        (.variant w tag (((TypedHeap.payloadShapes variants tag).zip payload).map tree))

end Olive
