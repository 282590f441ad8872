import Olive.AnyBinop
import Olive.HashTyped
import Olive.Utf8

/-! Dictionaries on the heap of the runtime: their maps, and the strings that they own. -/

namespace Olive

open HashTable HashTyped

namespace Dicts

/-- The type of the keys of a dictionary. The program knows it, the runtime does not. -/
inductive KeyKind where
  | str
  | int
  deriving DecidableEq

/-- What a live slot holds. A string has the number of its allocation, and a copy of a key the
dictionary that it was made for; the runtime sees neither. -/
inductive Slot where
  | obj (kind : KeyKind) (fields : KeyTable)
  | boxed (kind bits : Word)
  | str (bytes : List UInt8) (id : Nat) (owner : Option Word)
  | other (kind bits : Word)

structure World where
  /-- The live slots, by the address of the body. -/
  slots : Word → Option Slot
  /-- The memory of the literals, by address. -/
  literals : Word → Option (List UInt8)
  /-- The next number of a string. -/
  births : Nat
  /-- The strings that were made as copies of keys, and those that were freed. -/
  copied : List Nat
  freed : List Nat

inductive Stop where
  | panic
  | wild
  | outOfMemory
  deriving DecidableEq

abbrev Outcome (α : Type) := Except Stop α

/-- A read that leads nowhere is wild. -/
def reads {α : Type} (read : Option α) : Outcome α :=
  read.elim (.error .wild) .ok

/-- An address for a new slot. -/
def Fresh (σ : World) (a : Word) : Prop :=
  σ.slots a = none ∧ 0x10000 < a.toInt ∧ a &&& 7 = 0

/-- What the dictionaries call. -/
structure Runtime where
  fx : FxHasher
  /-- `GenSlab::alloc`, none where the memory is full. -/
  next : World → Option Word
  next_fresh : ∀ σ a, next σ = some a → Fresh σ a
  /-- The words that the bytes of a string are in memory. -/
  words : List UInt8 → Word × Word
  pySetattr : Word → Word → Word → World → Outcome (World × Word)
  pyDictGetDefault : Word → Word → Word → World → Outcome (World × Word)
  /-- `olive_free_any` and `copy_any` on slots of other kinds. -/
  freeOther : Word → World → Outcome World
  copyOther : Word → World → Outcome (World × Word)

def kindObj : Word := 2

/-- The header word, and the one after it. -/
def Slot.kind (rt : Runtime) : Slot → Word
  | .obj _ _ => kindObj
  | .boxed kind _ => kind
  | .str bytes _ _ => (rt.words bytes).1
  | .other kind _ => kind

def Slot.bits (rt : Runtime) : Slot → Word
  | .obj _ _ => 0
  | .boxed _ bits => bits
  | .str bytes _ _ => (rt.words bytes).2
  | .other _ bits => bits

/-- `ptr_is_slab_body`, with what is there. -/
def World.live (σ : World) (v : Word) : Option Slot :=
  if 0 < v.toInt ∧ v &&& 7 = 0 then σ.slots v else none

def isActiveObject (σ : World) (v : Word) : Bool :=
  (σ.live v).isSome

def strBody (w : Word) : Word := w &&& ~~~3

def strIsHeap (w : Word) : Bool := w &&& 2 != 0

def Slot.text : Slot → Option (List UInt8)
  | .str bytes _ _ => some bytes
  | _ => none

/-- `olive_str_to_bytes`, none where the pointer leads nowhere. -/
def World.strBytes (σ : World) (w : Word) : Option (List UInt8) :=
  if w = 0 then some []
  else if strIsHeap w then (σ.slots (strBody w)).bind Slot.text
  else (σ.literals (strBody w)).map fun memory => memory.takeWhile (· ≠ 0)

/-- `CStr::to_bytes`: the first nul ends the string. -/
def World.cstr (σ : World) (w : Word) : Option (List UInt8) :=
  (σ.strBytes w).map fun bytes => bytes.takeWhile (· ≠ 0)

section Keys

variable (rt : Runtime) (σ : World)

def classifyKey (w : Word) : Option KeyClass :=
  if isTaggedStrKey w then (σ.strBytes w).map .str
  else
    match σ.live w with
    | some slot =>
      if slot.kind rt = AnyBinop.kindInt ∨ slot.kind rt = AnyBinop.kindFloat then
        some (.scalar (slot.kind rt) (slot.bits rt))
      else some (.raw w)
    | none => some (.scalar kindInt w)

def hashClass : KeyClass → Word
  | .str bytes =>
    rt.fx.finish (rt.fx.write (rt.fx.writeU64 rt.fx.start (BitVec.ofNat 64 bytes.length)) bytes)
  | .scalar kind bits => rt.fx.finish (rt.fx.writeU64 (rt.fx.writeU64 rt.fx.start kind) bits)
  | .raw w => rt.fx.finish (rt.fx.writeU64 rt.fx.start w)

/-- `OliveStringKey::hash`, with no key descriptor active. -/
def keyHash (w : Word) : Option Word :=
  (classifyKey rt σ w).map (hashClass rt)

/-- `OliveStringKey::eq`. Two words of class raw that differ are unequal. -/
def keyEq (a b : Word) : Option Bool :=
  if a = b then some true
  else
    (classifyKey rt σ a).bind fun x =>
      (classifyKey rt σ b).map fun y => decide (x = y)

/-- `HashMap::get`. -/
def mapGet (fields : KeyTable) (key : Word) : Outcome (Option Word) :=
  reads (HashTable.lookup (keyHash rt σ) (keyEq rt σ) fields key)

/-- `HashMap::insert`. -/
def mapInsert (fields : KeyTable) (key val : Word) : Outcome KeyTable :=
  reads (HashTable.insert (keyHash rt σ) (keyEq rt σ) fields key val)

/-- `HashMap::remove_entry`. -/
def mapRemove (fields : KeyTable) (key : Word) : Outcome (Option (Word × Word) × KeyTable) :=
  reads (HashTable.removeEntry (keyHash rt σ) (keyEq rt σ) fields key)

end Keys

section Memory

variable (rt : Runtime) (σ : World)

def World.write (a : Word) (slot : Option Slot) : World :=
  { σ with slots := Function.update σ.slots a slot }

def World.put (a : Word) (slot : Slot) : World :=
  σ.write a (some slot)

/-- A slot goes back to its slab. -/
def World.release (a : Word) : World :=
  σ.write a none

def allocSlot (slot : Slot) : Outcome (World × Word) :=
  match rt.next σ with
  | none => .error .outOfMemory
  | some a => .ok (σ.put a slot, a)

/-- `str_alloc`. -/
def strAlloc (owner : Option Word) (bytes : List UInt8) : Outcome (World × Word) :=
  match rt.next σ with
  | none => .error .outOfMemory
  | some a => .ok ({ σ.put a (.str bytes σ.births owner) with births := σ.births + 1 }, a ||| 3)

/-- The copy of a key. -/
def keyAlloc (d : Word) (bytes : List UInt8) : Outcome (World × Word) :=
  (strAlloc rt σ (some d) bytes).map fun (after, w) =>
    ({ after with copied := σ.births :: σ.copied }, w)

/-- `str_free`: a literal and a slot that is free already stay. -/
def strFree (w : Word) : Outcome World :=
  if strBody w = 0 ∨ ¬ strIsHeap w then .ok σ
  else
    match σ.live (strBody w) with
    | none => .ok σ
    | some (.str _ id _) => .ok { σ.release (strBody w) with freed := id :: σ.freed }
    | some _ => .error .wild

/-- `olive_copy`. -/
def oliveCopy (w : Word) : Outcome (World × Word) :=
  (reads (σ.strBytes w)).bind fun bytes =>
    strAlloc rt σ none (Utf8.encode ((Utf8.decodeLossy bytes).filter (· ≠ '\x00')))

def copyStr (w : Word) : Outcome (World × Word) :=
  if w &&& 1 = 0 then .ok (σ, w)
  else if strIsHeap w && isActiveObject σ (strBody w) then oliveCopy rt σ w
  else .ok (σ, w)

/-- `copy_any`. -/
def copyAny (v : Word) : Outcome (World × Word) :=
  if v = 0 then .ok (σ, v)
  else if v &&& 1 ≠ 0 then copyStr rt σ v
  else if v &&& 7 ≠ 0 then .ok (σ, v)
  else if isActiveObject σ v then rt.copyOther v σ
  else .ok (σ, v)

/-- `olive_free_any`, over the free of a dictionary. -/
def freeAny (freeDict : World → Word → Outcome World) (v : Word) : Outcome World :=
  if v = 0 then .ok σ
  else if v &&& 1 ≠ 0 then strFree σ v
  else if v &&& 7 ≠ 0 then .ok σ
  else if v.toInt < 0x1000 then .ok σ
  else
    match σ.live v with
    | none => .ok σ
    | some (.obj _ _) => freeDict σ v
    | some (.boxed _ _) => .ok (σ.release v)
    | some _ => rt.freeOther v σ

end Memory

/-- The loop over the values, which frees what is live. -/
def freeValues (rt : Runtime) (freeDict : World → Word → Outcome World) :
    List Word → World → Outcome World
  | [], σ => .ok σ
  | v :: rest, σ =>
    if isActiveObject σ v then (freeAny rt σ freeDict v).bind (freeValues rt freeDict rest)
    else freeValues rt freeDict rest σ

/-- The loop over the keys, which frees the copies. -/
def freeKeys : List Word → World → Outcome World
  | [], σ => .ok σ
  | k :: rest, σ => if isTaggedStrKey k then (strFree σ k).bind (freeKeys rest) else freeKeys rest σ

def keysOf (fields : KeyTable) : List Word := fields.map fun e => e.2.1

def valuesOf (fields : KeyTable) : List Word := fields.map fun e => e.2.2

/-- `olive_free_obj`, which calls itself for a dictionary among the values; the depth is bounded. -/
def oliveFreeObj (rt : Runtime) : Nat → World → Word → Outcome World
  | 0, _, _ => .error .wild
  | depth + 1, σ, d =>
    match σ.live d with
    | some (.obj _ fields) =>
      (freeValues rt (oliveFreeObj rt depth) (valuesOf fields) σ).bind fun σ =>
        (freeKeys (keysOf fields) σ).map fun σ => σ.release d
    | _ => .ok σ

section Functions

variable (rt : Runtime) (σ : World)

def oliveObjNew (kind : KeyKind) : Outcome (World × Word) :=
  allocSlot rt σ (.obj kind [])

/-- The map of a dictionary; the slots of other kinds do not hold one. -/
def World.fields (d : Word) : Outcome (KeyKind × KeyTable) :=
  match σ.slots d with
  | some (.obj kind fields) => .ok (kind, fields)
  | _ => .error .wild

def isPyobject (d : Word) : Bool :=
  (σ.live d).any fun slot => slot.kind rt == AnyBinop.kindPyobject

def oliveObjSet (d attr val : Word) : Outcome (World × Word) :=
  if d = 0 then .error .panic
  else if ¬ isActiveObject σ d then .ok (σ, d)
  else if isPyobject rt σ d then rt.pySetattr d attr val σ
  else
    (σ.fields d).bind fun (kind, fields) =>
      if isTaggedStrKey attr then
        (mapGet rt σ fields attr).bind fun held =>
          if held.isNone then
            (reads (σ.cstr attr)).bind fun bytes =>
              (keyAlloc rt σ d bytes).bind fun (σ, owned) =>
                (mapInsert rt σ fields owned val).map fun fields => (σ.put d (.obj kind fields), d)
          else (mapInsert rt σ fields attr val).map fun fields => (σ.put d (.obj kind fields), d)
      else (mapInsert rt σ fields attr val).map fun fields => (σ.put d (.obj kind fields), d)

/-- What a lookup answers: the state, and the value or the miss. -/
def find (d attr : Word) : Outcome (Option Word) :=
  (σ.fields d).bind fun (_, fields) => mapGet rt σ fields attr

def oliveObjGet (d attr : Word) : Outcome (World × Word) :=
  if ¬ isActiveObject σ d then .ok (σ, 0)
  else if isPyobject rt σ d then rt.pyDictGetDefault d attr 0 σ
  else (find rt σ d attr).map fun found => (σ, found.getD 0)

/-- The value, or none for the fault. -/
def oliveObjGetChecked (d attr : Word) : Outcome (World × Option Word) :=
  if ¬ isActiveObject σ d then .ok (σ, none)
  else if isPyobject rt σ d then
    (rt.pyDictGetDefault d attr 0 σ).map fun (σ, v) => (σ, some v)
  else (find rt σ d attr).map fun found => (σ, found)

/-- `get_default_impl`, over what becomes of a value that is found. -/
def getDefaultImpl (finish : World → Word → Outcome (World × Word)) (d attr default : Word) :
    Outcome (World × Word) :=
  if ¬ isActiveObject σ d then .ok (σ, default)
  else if isPyobject rt σ d then rt.pyDictGetDefault d attr default σ
  else
    (find rt σ d attr).bind fun found =>
      match found with
      | some v => finish σ v
      | none => .ok (σ, default)

def oliveObjGetDefault (d attr default : Word) : Outcome (World × Word) :=
  getDefaultImpl rt σ (fun σ v => .ok (σ, v)) d attr default

/-- `remove_entry`, then the free of the key. -/
def takeEntry (d attr : Word) : Outcome (World × Option Word) :=
  (σ.fields d).bind fun (kind, fields) =>
    (mapRemove rt σ fields attr).bind fun (entry, fields) =>
      match entry with
      | some (k, v) =>
        let σ := σ.put d (.obj kind fields)
        if isTaggedStrKey k then (strFree σ k).map fun σ => (σ, some v) else .ok (σ, some v)
      | none => .ok (σ, none)

def oliveObjRemove (d attr : Word) : Outcome (World × Word) :=
  if ¬ isActiveObject σ d then .ok (σ, 0)
  else (takeEntry rt σ d attr).map fun (σ, v) => (σ, v.getD 0)

def oliveObjPopChecked (d attr : Word) : Outcome (World × Option Word) :=
  if ¬ isActiveObject σ d then .ok (σ, none) else takeEntry rt σ d attr

def oliveObjPopDefault (d attr default : Word) : Outcome (World × Word) :=
  if ¬ isActiveObject σ d then .ok (σ, default)
  else (takeEntry rt σ d attr).map fun (σ, v) => (σ, v.getD default)

def oliveObjSetdefault (d attr default : Word) : Outcome (World × Word) :=
  if d = 0 then .error .panic
  else
    (find rt σ d attr).bind fun found =>
      match found with
      | some v => .ok (σ, v)
      | none => (oliveObjSet rt σ d attr default).map fun (σ, _) => (σ, default)

/-- The loop of `olive_obj_update`, over the entries as they were. -/
def setAll (d : Word) : List (Word × Word) → World → Outcome World
  | [], σ => .ok σ
  | (k, v) :: rest, σ => (oliveObjSet rt σ d k v).bind fun (σ, _) => setAll d rest σ

def oliveObjUpdate (d other : Word) : Outcome (World × Word) :=
  if d = 0 ∨ ¬ isActiveObject σ other then .ok (σ, d)
  else
    (σ.fields other).bind fun (_, fields) =>
      (setAll rt d (fields.map (·.2)) σ).map fun σ => (σ, d)

def oliveObjClear (depth : Nat) (d : Word) : Outcome (World × Word) :=
  if d = 0 then .ok (σ, d)
  else
    (σ.fields d).bind fun (kind, fields) =>
      (freeValues rt (oliveFreeObj rt depth) (valuesOf fields) σ).bind fun σ =>
        (freeKeys (keysOf fields) σ).map fun σ => (σ.put d (.obj kind []), d)

def oliveInObj (key d : Word) : Outcome Bool :=
  if d = 0 then .error .panic else (find rt σ d key).map Option.isSome

def oliveObjLen (d : Word) : Outcome Nat :=
  if d = 0 then .error .panic else (σ.fields d).map fun (_, fields) => fields.length

def copyAll : List Word → World → Outcome (World × List Word)
  | [], σ => .ok (σ, [])
  | k :: rest, σ =>
    (copyAny rt σ k).bind fun (σ, k) => (copyAll rest σ).map fun (σ, ks) => (σ, k :: ks)

def oliveObjKeys (d : Word) : Outcome (World × List Word) :=
  if d = 0 then .ok (σ, []) else (σ.fields d).bind fun (_, fields) => copyAll rt (keysOf fields) σ

end Functions

section Examples

instance (σ : World) (a : Word) : Decidable (Fresh σ a) :=
  inferInstanceAs (Decidable (_ ∧ _ ∧ _))

/-- A heap of four slots, with the hash of `rustc_hash` for words. -/
def smallHeap : Runtime where
  fx :=
    { State := Word
      start := 0
      writeU64 := fun s x => (s + x) * 0xf1357aea2e62a9c5
      write := fun s bytes => bytes.foldl (fun s b => (s + b.toBitVec.setWidth 64) * 0xf1357aea2e62a9c5) s
      finish := fun s => s.rotateLeft 26 }
  next σ := [0x20000, 0x20040, 0x20080, 0x200c0].find? fun a => decide (Fresh σ a)
  next_fresh := fun σ a h => by
    have hfound := List.find?_some h
    exact of_decide_eq_true hfound
  words _ := (0, 0)
  pySetattr d _ _ σ := .ok (σ, d)
  pyDictGetDefault _ _ default σ := .ok (σ, default)
  freeOther _ σ := .ok σ
  copyOther v σ := .ok (σ, v)

def emptyWorld : World where
  slots _ := none
  literals _ := none
  births := 0
  copied := []
  freed := []

end Examples

end Dicts

end Olive
