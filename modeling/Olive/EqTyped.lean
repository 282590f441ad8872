import Olive.Pairing
import Olive.TypedHeap

/-! `olive_eq_typed`: deep equality of two values of one type. -/

namespace Olive

/-- The pairs a comparison has begun with, and those it has answered for without looking. -/
structure EqState where
  visited : List (Word × Word)
  taken : List (Shape × Word × Word)

namespace EqState

def empty : EqState := ⟨[], []⟩

def visit (st : EqState) (a b : Word) : EqState := { st with visited := (a, b) :: st.visited }

def take (st : EqState) (s : Shape) (a b : Word) : EqState :=
  { st with taken := (s, a, b) :: st.taken }

end EqState

namespace EqTyped

abbrev Test := Shape → Word → Word → EqState → Option (Bool × EqState)

variable (h : TypedHeap) (eq : Test)

/-- The loop over elements or fields: it goes on after a difference. -/
def eqFields : List ((Shape × Word) × Shape × Word) → Bool → EqState → Option (Bool × EqState)
  | [], equal, st => some (equal, st)
  | (a, b) :: rest, equal, st => do
    let (r, st) ← eq a.1 a.2 b.2 st
    eqFields rest (equal && r) st

/-- Lists, tuples and structs. Only lists can have different numbers of parts. -/
def eqParts (s : Shape) (a b : Word) (st : EqState) : Option (Bool × EqState) :=
  match h.find a, h.find b with
  | some oa, some ob => do
    let as ← TypedHeap.parts s oa
    let bs ← TypedHeap.parts s ob
    if as.length ≠ bs.length then some (false, st)
    else eqFields eq (as.zip bs) true (st.visit a b)
  | _, _ => some (decide (a = b), st)

def eqList (item : Shape) := eqParts h eq (.list item)

def eqTuple (items : List Shape) := eqParts h eq (.tuple items)

def eqStruct (fields : List Shape) := eqParts h eq (.struct fields)

def eqSet (item : Shape) (a b : Word) (st : EqState) : Option (Bool × EqState) :=
  match h.find a, h.find b with
  | some (.hashSet as), some (.hashSet bs) =>
    if as.length ≠ bs.length then some (false, st)
    else Pairing.pairAll (eq item) as bs (st.visit a b)
  | some _, some _ => none
  | _, _ => some (decide (a = b), st)

def eqEntry (key value : Shape) (a b : Word × Word) (st : EqState) : Option (Bool × EqState) := do
  let (r, st) ← eq key a.1 b.1 st
  if r then eq value a.2 b.2 st else some (false, st)

def eqDict (key value : Shape) (a b : Word) (st : EqState) : Option (Bool × EqState) :=
  match h.find a, h.find b with
  | some (.obj as), some (.obj bs) =>
    if as.length ≠ bs.length then some (false, st)
    else Pairing.pairAll (eqEntry eq key value) as bs (st.visit a b)
  | some _, some _ => none
  | _, _ => some (decide (a = b), st)

def eqEnum (variants : List (List Shape)) (a b : Word) (st : EqState) : Option (Bool × EqState) :=
  match h.find a, h.find b with
  | some (.enum aTag aPayload), some (.enum bTag bPayload) => do
    let shapes := if aTag = bTag then TypedHeap.payloadShapes variants aTag else []
    let (payloadEqual, st) ←
      eqFields eq ((shapes.zip aPayload).zip (shapes.zip bPayload)) true (st.visit a b)
    some (decide (aTag = bTag) && payloadEqual, st)
  | some _, some _ => none
  | _, _ => some (decide (a = b), st)

def strEq (a b : Word) : Bool :=
  if a = b then true else if a = 0 ∨ b = 0 then false else decide (h.text a = h.text b)

local instance lawfulPair : LawfulBEq (Word × Word) := inferInstance

/-- `eq_val`, with a bound on the depth of its calls: `none` is a call that goes deeper, or that
reads a slot as what it is not. -/
def eqVal : Nat → Test
  | 0, _, _, _, _ => none
  | fuel + 1, s, a, b, st =>
    if a = b then some (true, st)
    else if (h.find a).isSome ∧ (h.find b).isSome ∧ (a, b) ∈ st.visited then
      some (true, st.take s a b)
    else
      match s with
      | .leaf => some (false, st)
      | .str => some (strEq h a b, st)
      | .any => some (h.anyEq a b, st)
      | .list item => eqList h (eqVal fuel) item a b st
      | .set item => eqSet h (eqVal fuel) item a b st
      | .tuple items => eqTuple h (eqVal fuel) items a b st
      | .dict key value => eqDict h (eqVal fuel) key value a b st
      | .struct fields => eqStruct h (eqVal fuel) fields a b st
      | .enum variants => eqEnum h (eqVal fuel) variants a b st
      | .backref target => eqVal fuel (h.shapes target) a b st

/-- `olive_eq_typed`. -/
def oliveEqTyped (fuel : Nat) (s : Shape) (a b : Word) : Option (Bool × EqState) :=
  eqVal h fuel s a b .empty

theorem zip_shape {shapes : List Shape} {xs ys : List Word} :
    ∀ p ∈ (shapes.zip xs).zip (shapes.zip ys), p.1.1 = p.2.1 := by
  induction shapes generalizing xs ys with
  | nil => simp
  | cons s shapes ih =>
    cases xs with
    | nil => simp
    | cons x xs =>
      cases ys with
      | nil => simp
      | cons y ys =>
        rw [List.zip_cons_cons, List.zip_cons_cons, List.zip_cons_cons, List.forall_mem_cons]
        exact ⟨rfl, ih⟩

theorem parts_shape {s : Shape} {oa ob : SlotContents} {as bs : List (Shape × Word)}
    (ha : TypedHeap.parts s oa = some as) (hb : TypedHeap.parts s ob = some bs) :
    ∀ p ∈ as.zip bs, p.1.1 = p.2.1 := by
  cases s with
  | list item =>
    cases oa with
    | vec xs =>
      cases ob with
      | vec ys =>
        cases ha
        cases hb
        intro p hp
        obtain ⟨hpa, hpb⟩ := List.of_mem_zip hp
        obtain ⟨_, _, hpa⟩ := List.mem_map.mp hpa
        obtain ⟨_, _, hpb⟩ := List.mem_map.mp hpb
        rw [← hpa, ← hpb]
      | _ => cases hb
    | _ => cases ha
  | tuple shapes =>
    cases oa with
    | vec xs =>
      cases ob with
      | vec ys =>
        cases ha
        cases hb
        exact zip_shape
      | _ => cases hb
    | _ => cases ha
  | struct shapes =>
    cases oa with
    | struct xs =>
      cases ob with
      | struct ys =>
        cases ha
        cases hb
        exact zip_shape
      | _ => cases hb
    | _ => cases ha
  | _ => simp [TypedHeap.parts] at ha

end EqTyped

end Olive
