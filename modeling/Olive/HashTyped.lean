import Olive.EqTyped
import Olive.HashTable

/-! `hash_val`, and the keys of dicts and sets that it and `eq_val` stand behind. -/

namespace Olive

/-- `rustc_hash::FxHasher`, whatever it does. -/
structure FxHasher where
  State : Type
  start : State
  writeU64 : State → Word → State
  write : State → List UInt8 → State
  finish : State → Word

namespace HashTyped

variable (h : TypedHeap) (fx : FxHasher)

def one (v : Word) : Word := fx.finish (fx.writeU64 fx.start v)

/-- For parts in a fixed order. -/
def seq (parts : List Word) : Word := fx.finish (parts.foldl fx.writeU64 fx.start)

/-- For parts in any order. -/
def commutative (parts : List Word) : Word := parts.foldl (· ^^^ ·) 0

def hashStr (w : Word) : Word := if w = 0 then one fx w else fx.finish (fx.write fx.start (h.text w))

def hashAny (w : Word) : Word := one fx w

/-- A hash, with the objects that have been visited before and after. -/
abbrev Hash := Shape → Word → List Word → Option (Word × List Word)

def hashAll {β : Type} (hash : β → List Word → Option (Word × List Word)) :
    List β → List Word → Option (List Word × List Word)
  | [], visited => some ([], visited)
  | b :: rest, visited => do
    let (x, visited) ← hash b visited
    let (xs, visited) ← hashAll hash rest visited
    some (x :: xs, visited)

variable (hash : Hash)

def hashPart (p : Shape × Word) (visited : List Word) : Option (Word × List Word) :=
  hash p.1 p.2 visited

/-- Lists, tuples and structs. -/
def hashParts (s : Shape) (w : Word) (visited : List Word) : Option (Word × List Word) :=
  match h.find w with
  | none => some (one fx 0, visited)
  | some o => do
    let items ← TypedHeap.parts s o
    let (xs, visited) ← hashAll (hashPart hash) items visited
    some (seq fx xs, visited)

def hashList (item : Shape) := hashParts h fx hash (.list item)

def hashTuple (items : List Shape) := hashParts h fx hash (.tuple items)

def hashStruct (fields : List Shape) := hashParts h fx hash (.struct fields)

def hashSet (item : Shape) (w : Word) (visited : List Word) : Option (Word × List Word) :=
  match h.find w with
  | none => some (one fx 0, visited)
  | some (.hashSet items) => do
    let (xs, visited) ← hashAll (hash item) items visited
    some (commutative xs, visited)
  | some _ => none

def hashEntry (key value : Shape) (e : Word × Word) (visited : List Word) :
    Option (Word × List Word) := do
  let (kh, visited) ← hash key e.1 visited
  let (vh, visited) ← hash value e.2 visited
  some (seq fx [kh, vh], visited)

def hashDict (key value : Shape) (w : Word) (visited : List Word) : Option (Word × List Word) :=
  match h.find w with
  | none => some (one fx 0, visited)
  | some (.obj entries) => do
    let (xs, visited) ← hashAll (hashEntry fx hash key value) entries visited
    some (commutative xs, visited)
  | some _ => none

/-- The tag of an enum that is gone is `usize::MAX`. -/
def hashEnum (variants : List (List Shape)) (w : Word) (visited : List Word) :
    Option (Word × List Word) :=
  match h.find w with
  | none => some (seq fx [one fx (-1)], visited)
  | some (.enum tag payload) => do
    let (xs, visited) ←
      hashAll (hashPart hash) ((TypedHeap.payloadShapes variants tag).zip payload) visited
    some (seq fx (one fx tag :: xs), visited)
  | some _ => none

/-- `hash_val`, with a bound on the depth of its calls. -/
def hashVal : Nat → Hash
  | 0, _, _, _ => none
  | fuel + 1, s, w, visited =>
    if (h.find w).isSome ∧ w ∈ visited then some (0, visited)
    else
      let visited := if (h.find w).isSome then w :: visited else visited
      match s with
      | .leaf => some (one fx w, visited)
      | .str => some (hashStr h fx w, visited)
      | .any => some (hashAny fx w, visited)
      | .list item => hashList h fx (hashVal fuel) item w visited
      | .set item => hashSet h fx (hashVal fuel) item w visited
      | .tuple items => hashTuple h fx (hashVal fuel) items w visited
      | .dict key value => hashDict h fx (hashVal fuel) key value w visited
      | .struct fields => hashStruct h fx (hashVal fuel) fields w visited
      | .enum variants => hashEnum h fx (hashVal fuel) variants w visited
      | .backref target => hashVal fuel (h.shapes target) w visited

/-- `hash_key`, with a key descriptor active. -/
def hashKey (fuel : Nat) (s : Shape) (w : Word) : Option Word :=
  (hashVal h fx fuel s w []).map (·.1)

def kindInt : Word := 14

inductive KeyClass where
  | str (bytes : List UInt8)
  | scalar (kind bits : Word)
  | raw (w : Word)
  deriving DecidableEq

def isTaggedStrKey (w : Word) : Bool := w &&& 1 = 1 ∧ (0x10000 : Word).slt (w &&& ~~~1)

def classifyKey (w : Word) : KeyClass :=
  if isTaggedStrKey w then .str (h.text w)
  else
    match h.find w with
    | some (.boxed kind bits) => .scalar kind bits
    | some _ => .raw w
    | none => .scalar kindInt w

/-- `OliveStringKey::eq`, with a key descriptor active. -/
def keyEq (fuel : Nat) (s : Shape) (a b : Word) : Option Bool :=
  if a = b then some true
  else
    match classifyKey h a, classifyKey h b with
    | .str x, .str y => some (decide (x = y))
    | .scalar k x, .scalar k' y => some (decide (k = k' ∧ x = y))
    | .raw a, .raw b => (EqTyped.oliveEqTyped h fuel s a b).map (·.1)
    | _, _ => some false

/-- `OliveStringKey::hash`, with a key descriptor active. -/
def keyHash (fuel : Nat) (s : Shape) (w : Word) : Option Word :=
  match classifyKey h w with
  | .str bytes => some (fx.finish (fx.write (fx.writeU64 fx.start (BitVec.ofNat 64 bytes.length)) bytes))
  | .scalar kind bits => some (fx.finish (fx.writeU64 (fx.writeU64 fx.start kind) bits))
  | .raw w => (hashKey h fx fuel s w).map fun x => fx.finish (fx.writeU64 fx.start x)

/-- An `FxHashMap`, of keys and values. -/
abbrev KeyTable := HashTable.Table Word Word Word

/-- `olive_obj_set_typed`, and `olive_set_add_typed` with no value. -/
def setTyped (fuel : Nat) (s : Shape) : KeyTable → Word → Word → Option KeyTable :=
  HashTable.insert (keyHash h fx fuel s) (keyEq h fuel s)

/-- `olive_obj_get_typed`, `olive_set_contains_typed` and `olive_in_obj_typed`. -/
def getTyped (fuel : Nat) (s : Shape) : KeyTable → Word → Option (Option Word) :=
  HashTable.lookup (keyHash h fx fuel s) (keyEq h fuel s)

end HashTyped

end Olive
