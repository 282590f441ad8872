import Olive.DictOwners

/-! Runs of the operations on dictionaries, and the finite maps that they stand for. -/

namespace Olive

namespace Dicts

open HashTable HashTyped

/-- The operations on dictionaries, and what the rest of the program does with the heap: it makes and
frees strings and other slots. -/
inductive Op where
  | new (kind : KeyKind)
  | set (d k v : Word)
  | get (d k : Word)
  | getChecked (d k : Word)
  | getDefault (d k default : Word)
  | remove (d k : Word)
  | popChecked (d k : Word)
  | popDefault (d k default : Word)
  | setdefault (d k default : Word)
  | update (d other : Word)
  | contains (d k : Word)
  | len (d : Word)
  | keys (d : Word)
  | clear (d : Word)
  | free (d : Word)
  | newString (bytes : List UInt8)
  | dropString (w : Word)
  | newScalar (kind bits : Word)
  | newOther (kind bits : Word)
  | dropSlot (a : Word)

inductive Answer where
  | done
  | word (w : Word)
  | fault
  | truth (b : Bool)
  | count (n : Nat)
  | words (ws : List Word)

def Answer.orFault : Option Word → Answer
  | some w => .word w
  | none => .fault

/-- One operation; dictionaries among the values are freed to a depth of `depth`. -/
def step (rt : Runtime) (depth : Nat) (σ : World) : Op → Outcome (World × Answer)
  | .new kind => (oliveObjNew rt σ kind).map fun (σ, d) => (σ, .word d)
  | .set d k v => (oliveObjSet rt σ d k v).map fun (σ, w) => (σ, .word w)
  | .get d k => (oliveObjGet rt σ d k).map fun (σ, w) => (σ, .word w)
  | .getChecked d k => (oliveObjGetChecked rt σ d k).map fun (σ, w) => (σ, .orFault w)
  | .getDefault d k default => (oliveObjGetDefault rt σ d k default).map fun (σ, w) => (σ, .word w)
  | .remove d k => (oliveObjRemove rt σ d k).map fun (σ, w) => (σ, .word w)
  | .popChecked d k => (oliveObjPopChecked rt σ d k).map fun (σ, w) => (σ, .orFault w)
  | .popDefault d k default => (oliveObjPopDefault rt σ d k default).map fun (σ, w) => (σ, .word w)
  | .setdefault d k default => (oliveObjSetdefault rt σ d k default).map fun (σ, w) => (σ, .word w)
  | .update d other => (oliveObjUpdate rt σ d other).map fun (σ, w) => (σ, .word w)
  | .contains d k => (oliveInObj rt σ k d).map fun b => (σ, .truth b)
  | .len d => (oliveObjLen σ d).map fun n => (σ, .count n)
  | .keys d => (oliveObjKeys rt σ d).map fun (σ, ws) => (σ, .words ws)
  | .clear d => (oliveObjClear rt σ depth d).map fun (σ, w) => (σ, .word w)
  | .free d => (oliveFreeObj rt (depth + 1) σ d).map fun σ => (σ, .done)
  | .newString bytes => (strAlloc rt σ none bytes).map fun (σ, w) => (σ, .word w)
  | .dropString w => (strFree σ w).map fun σ => (σ, .done)
  | .newScalar kind bits => (allocSlot rt σ (.boxed kind bits)).map fun (σ, w) => (σ, .word w)
  | .newOther kind bits => (allocSlot rt σ (.other kind bits)).map fun (σ, w) => (σ, .word w)
  | .dropSlot a => .ok (σ.release a, .done)

/-- The dictionary that an operation is about. -/
def Op.dict : Op → Option Word
  | .set d _ _ | .get d _ | .getChecked d _ | .getDefault d _ _ | .remove d _ | .popChecked d _
  | .popDefault d _ _ | .setdefault d _ _ | .update d _ | .contains d _ | .len d | .keys d
  | .clear d | .free d => some d
  | _ => none

/-- The key that an operation is given. -/
def Op.key : Op → Option Word
  | .set _ k _ | .get _ k | .getChecked _ k | .getDefault _ k _ | .remove _ k | .popChecked _ k
  | .popDefault _ k _ | .setdefault _ k _ | .contains _ k => some k
  | _ => none

/-- A string that the program holds, of its own or a literal. -/
def HoldsString (σ : World) (w : Word) : Prop :=
  isTaggedStrKey w = true ∧ ∃ bytes, σ.strBytes w = some bytes

/-- What the program keeps to: a dictionary is live and has keys of one kind, and a string or a slot
that the program frees is its own. -/
def Fits (σ : World) (op : Op) : Prop :=
  (∀ d, op.dict = some d → ∃ kind fields, σ.live d = some (.obj kind fields) ∧
    ∀ k, op.key = some k → kind = .str → HoldsString σ k) ∧
  match op with
  | .update d other => ∀ kind fields, σ.live d = some (.obj kind fields) →
      ∃ fields', σ.live other = some (.obj kind fields')
  | .dropString w => ∃ a bytes id, w = a ||| 3 ∧ σ.slots a = some (.str bytes id none)
  | .dropSlot a => ∃ kind bits, σ.slots a = some (.boxed kind bits) ∨ σ.slots a = some (.other kind bits)
  | _ => True

/-- An integer that the runtime takes for one: it looks like no string pointer, and is the address
of no live slot. -/
def PlainInt (σ : World) (w : Word) : Prop :=
  isTaggedStrKey w = false ∧ σ.live w = none

def PlainKeys (σ : World) (fields : KeyTable) : Prop :=
  ∀ e ∈ fields, PlainInt σ e.2.1

/-- The steps that do not reach a defect: integer keys are plain, a string that becomes a key has no
nul, the keys that are listed are UTF-8, and no value that is dropped is the address of a live slot. -/
def Clean (σ : World) (op : Op) : Prop :=
  ∀ d kind fields, op.dict = some d → σ.live d = some (.obj kind fields) →
    (∀ k, op.key = some k → kind = .int → PlainInt σ k ∧ PlainKeys σ fields) ∧
    match op with
    | .set _ k _ | .setdefault _ k _ =>
      kind = .str → ∀ bytes, σ.strBytes k = some bytes → ∀ b ∈ bytes, b ≠ 0
    | .update _ other => kind = .int → PlainKeys σ fields ∧
        ∀ fields', σ.live other = some (.obj .int fields') → PlainKeys σ fields'
    | .keys _ => match kind with
      | .int => PlainKeys σ fields
      | .str => ∀ e ∈ fields, ∀ bytes, σ.strBytes e.2.1 = some bytes → Utf8.Valid bytes
    | .clear _ | .free _ => ∀ e ∈ fields, σ.live e.2.2 = none
    | _ => True

abbrev Map := Finmap fun _ : Name => Word

def Slot.map (σ : World) : Slot → Option Map
  | .obj _ fields => some (asMap (nameOf σ) fields)
  | _ => none

/-- The map of the dictionary at `d`. -/
def mapAt (σ : World) (d : Word) : Option Map :=
  (σ.slots d).bind (Slot.map σ)

/-- What the map of a dictionary answers, and the map after; none once it is freed. -/
def expected (σ : World) (m : Map) : Op → Answer × Option Map
  | .set d k v => (.word d, some (m.insert (nameOf σ k) v))
  | .get _ k => (.word ((m.lookup (nameOf σ k)).getD 0), some m)
  | .getChecked _ k => (.orFault (m.lookup (nameOf σ k)), some m)
  | .getDefault _ k default => (.word ((m.lookup (nameOf σ k)).getD default), some m)
  | .remove _ k => (.word ((m.lookup (nameOf σ k)).getD 0), some (m.erase (nameOf σ k)))
  | .popChecked _ k => (.orFault (m.lookup (nameOf σ k)), some (m.erase (nameOf σ k)))
  | .popDefault _ k default =>
    (.word ((m.lookup (nameOf σ k)).getD default), some (m.erase (nameOf σ k)))
  | .setdefault _ k default => match m.lookup (nameOf σ k) with
    | some v => (.word v, some m)
    | none => (.word default, some (m.insert (nameOf σ k) default))
  | .update d other => (.word d, some ((mapAt σ other).getD ∅ ∪ m))
  | .contains _ k => (.truth (m.lookup (nameOf σ k)).isSome, some m)
  | .len _ => (.count m.keys.card, some m)
  | .clear d => (.word d, some ∅)
  | .free _ => (.done, none)
  | _ => (.done, some m)

/-- The result of an operation, and the maps after it, are those of finite maps. -/
def Right (σ : World) (op : Op) (σ' : World) (answer : Answer) : Prop :=
  match op with
  | .new _ => ∃ d, answer = .word d ∧ mapAt σ d = none ∧
      mapAt σ' = Function.update (mapAt σ) d (some ∅)
  | .keys d => ∃ m ws, mapAt σ d = some m ∧ answer = .words ws ∧ (ws.map (nameOf σ')).Nodup ∧
      (ws.map (nameOf σ')).toFinset = m.keys ∧ mapAt σ' = mapAt σ
  | _ => match op.dict with
    | some d => ∃ m, mapAt σ d = some m ∧ answer = (expected σ m op).1 ∧
        mapAt σ' = Function.update (mapAt σ) d (expected σ m op).2
    | none => mapAt σ' = mapAt σ

/-- Every slot stays that is neither the dictionary of the operation nor a copy that it owns; what the
program drops is its own. -/
def Keeps (σ : World) (op : Op) (σ' : World) : Prop :=
  ∀ a slot, σ.slots a = some slot →
    (∀ d, op.dict = some d → a ≠ d ∧ ¬ Owned σ d a) →
    (∀ w, op = .dropString w → a ≠ strBody w) → op ≠ .dropSlot a → σ'.slots a = some slot

/-- The keys of strings are copies that the dictionary owns, each copy is the key of one entry, and a
copy that is no longer there was freed, once. -/
structure Balanced (σ : World) : Prop where
  keys : ∀ d fields, σ.slots d = some (.obj .str fields) → ∀ e ∈ fields,
    ∃ a, e.2.1 = a ||| 3 ∧ Owned σ d a
  once : ∀ d a, Owned σ d a → ∃ before e after,
    σ.slots d = some (.obj .str (before ++ e :: after)) ∧ e.2.1 = a ||| 3 ∧
      ∀ e' ∈ before ++ after, e'.2.1 ≠ a ||| 3
  freed : σ.freed.Nodup
  copies : ∀ id ∈ σ.copied,
    id ∉ σ.freed ↔ ∃ a bytes d, σ.slots a = some (.str bytes id (some d))

/-- A heap without dictionaries. -/
structure Start (σ : World) : Prop where
  body : ∀ a slot, σ.slots a = some slot → IsBody a
  noDict : ∀ d kind fields, σ.slots d ≠ some (.obj kind fields)
  strings : ∀ a bytes id owner, σ.slots a = some (.str bytes id owner) → owner = none ∧ id < σ.births
  apart : ∀ a b bytes bytes' id owner owner', σ.slots a = some (.str bytes id owner) →
    σ.slots b = some (.str bytes' id owner') → a = b
  copied : σ.copied = []
  freed : σ.freed = []

/-- The states that clean steps reach. -/
inductive Run (rt : Runtime) (depth : Nat) (σ₀ : World) : World → Prop where
  | start : Run rt depth σ₀ σ₀
  | step {σ σ' : World} {op : Op} {answer : Answer} (before : Run rt depth σ₀ σ) (fits : Fits σ op)
      (clean : Clean σ op) (taken : step rt depth σ op = .ok (σ', answer)) : Run rt depth σ₀ σ'

/-- An operation goes through unless the memory is full, and then does what it should. -/
def Refines (rt : Runtime) (depth : Nat) (σ : World) (op : Op) : Prop :=
  step rt depth σ op = .error .outOfMemory ∨
    ∃ σ' answer, step rt depth σ op = .ok (σ', answer) ∧ Right σ op σ' answer ∧ Keeps σ op σ'

end Dicts

end Olive
