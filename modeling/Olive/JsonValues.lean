import Mathlib.Data.Char
import Mathlib.Data.List.Lex
import Olive.BoxedReads
import Olive.SortedEntries

/-! JSON values on the heap of the runtime: how they are put there, and how the words of a container
are read back. -/

namespace Olive

namespace Dicts

namespace Json

open AnyBinop HashTable HashTyped

/-- `serde_json::Number`: a natural, a negative integer, or a float by its bits. -/
inductive Number where
  | posInt (n : Nat)
  | negInt (i : Int)
  | float (bits : Word)
  deriving DecidableEq

/-- `serde_json::Value`. The entries of an object stand in the order of their keys. -/
inductive Value where
  | null
  | bool (b : Bool)
  | number (n : Number)
  | string (s : List Char)
  | array (elems : List Value)
  | object (entries : List (List Char × Value))

/-- The dictionaries' heap with the elements of the lists on it, by the address of the header. -/
structure Heap extends World where
  lists : Word → Option (List Word)

/-- What the conversions call besides. -/
structure JsonRuntime extends Runtime where
  /-- `as f64` of an integer, and `as i64` of a float. -/
  toF64 : Int → Word
  toI64 : Word → Word
  /-- The order that a hash map yields its entries in. -/
  iterate : KeyTable → KeyTable
  iterate_perm : ∀ fields, (iterate fields).Perm fields

def kindList : Word := 1

def kindAnyList : Word := 15

/-- Neither an infinity nor a NaN. -/
def isFinite (bits : Word) : Bool := (bits >>> 52) &&& 0x7ff != 0x7ff

def Number.asI64 : Number → Option Word
  | .posInt n => if n < 2 ^ 63 then some (BitVec.ofNat 64 n) else none
  | .negInt i => some (BitVec.ofInt 64 i)
  | .float _ => none

/-- `as_f64`, which has a result for every number. -/
def Number.asF64 (rt : JsonRuntime) : Number → Word
  | .posInt n => rt.toF64 n
  | .negInt i => rt.toF64 i
  | .float bits => bits

/-- `Number::from` of an `i64`. -/
def Number.ofI64 (w : Word) : Number :=
  if w.toInt < 0 then .negInt w.toInt else .posInt w.toInt.toNat

def Number.fromF64 (bits : Word) : Option Number :=
  if isFinite bits then some (.float bits) else none

section Encoding

variable (rt : JsonRuntime)

/-- `olive_str_internal`. -/
def strInternal (σ : Heap) (s : List Char) : Outcome (Heap × Word) :=
  (strAlloc rt.toRuntime σ.toWorld none ((Utf8.encode s).filter (· ≠ 0))).map fun (after, w) =>
    ({ σ with toWorld := after }, w)

def heapBox (σ : Heap) (kind bits : Word) : Outcome (Heap × Word) :=
  (allocSlot rt.toRuntime σ.toWorld (.boxed kind bits)).map fun (after, w) =>
    ({ σ with toWorld := after }, w)

def oliveBoxInt (σ : Heap) (i : Word) : Outcome (Heap × Word) :=
  if anyIntMin ≤ i.toInt ∧ i.toInt ≤ anyIntMax then .ok (σ, (i <<< 3) ||| tagInt)
  else heapBox rt σ AnyBinop.kindInt i

def oliveBoxFloat (σ : Heap) (bits : Word) : Outcome (Heap × Word) :=
  heapBox rt σ kindFloat bits

def oliveBoxBool (b : Bool) : Word :=
  ((if b then 1 else 0) <<< 3) ||| tagBool

/-- `list_from_vec`. -/
def listFromVec (σ : Heap) (elems : List Word) : Outcome (Heap × Word) :=
  (allocSlot rt.toRuntime σ.toWorld (.other kindList 0)).map fun (after, w) =>
    ({ toWorld := after, lists := Function.update σ.lists w (some elems) }, w)

/-- `new_obj_from_map`. -/
def newObjFromMap (σ : Heap) (fields : KeyTable) : Outcome (Heap × Word) :=
  (oliveObjNew rt.toRuntime σ.toWorld .str).map fun (after, w) =>
    ({ σ with toWorld := after.put w (.obj .str fields) }, w)

mutual

/-- `json_to_olive`, and `json_to_olive_any` where `boxed`: they differ in the scalars alone, and
both convert what is in a container by the second. -/
def convert (boxed : Bool) (σ : Heap) : Value → Outcome (Heap × Word)
  | .null => .ok (σ, if boxed then tagNull else 0)
  | .bool b => .ok (σ, if boxed then oliveBoxBool b else if b then 1 else 0)
  | .number n =>
    if boxed then
      match n.asI64 with
      | some i => oliveBoxInt rt σ i
      | none => oliveBoxFloat rt σ (n.asF64 rt)
    else .ok (σ, n.asI64.getD (rt.toI64 (n.asF64 rt)))
  | .string s => strInternal rt σ s
  | .array elems => (convertAll σ elems).bind fun (σ, words) => listFromVec rt σ words
  | .object entries => (convertEntries σ [] entries).bind fun (σ, fields) => newObjFromMap rt σ fields

def convertAll (σ : Heap) : List Value → Outcome (Heap × List Word)
  | [] => .ok (σ, [])
  | v :: rest =>
    (convert true σ v).bind fun (σ, w) =>
      (convertAll σ rest).map fun (σ, words) => (σ, w :: words)

def convertEntries (σ : Heap) (fields : KeyTable) : List (List Char × Value) → Outcome (Heap × KeyTable)
  | [] => .ok (σ, fields)
  | (k, v) :: rest =>
    (strInternal rt σ k).bind fun (σ, key) =>
      (convert true σ v).bind fun (σ, w) =>
        (mapInsert rt.toRuntime σ.toWorld fields key w).bind fun fields => convertEntries σ fields rest

end

def jsonToOlive (σ : Heap) (v : Value) : Outcome (Heap × Word) := convert rt false σ v

def jsonToOliveAny (σ : Heap) (v : Value) : Outcome (Heap × Word) := convert rt true σ v

end Encoding

section Decoding

variable (rt : JsonRuntime) (σ : Heap) (decode : Word → Outcome Value)

def decodeAll : List Word → Outcome (List Value)
  | [] => .ok []
  | w :: rest => (decode w).bind fun v => (decodeAll rest).map fun values => v :: values

/-- The loop over the fields, which inserts into the map. -/
def decodeEntries (map : List (List Char × Value)) : KeyTable → Outcome (List (List Char × Value))
  | [] => .ok map
  | e :: rest =>
    (reads (σ.strBytes e.2.1)).bind fun bytes =>
      (decode e.2.2).bind fun v =>
        decodeEntries (SortedEntries.insert (Utf8.decodeLossy bytes) v map) rest

end Decoding

def minHeapPtr : Int := 0x10000

/-- `olive_to_json`, which calls itself for what is in a container; the depth is bounded. -/
def oliveToJson (rt : JsonRuntime) : Nat → Heap → Word → Outcome Value
  | 0, _, _ => .error .wild
  | depth + 1, σ, val =>
    if val = 0 then .ok .null
    else if val &&& tagMask = tagInt then .ok (.number (.ofI64 (val.sshiftRight 3)))
    else if val &&& tagMask = tagBool then .ok (.bool (val.sshiftRight 3 != 0))
    else if val &&& tagMask = tagNull then .ok .null
    else if 0x10000 < val.toInt ∧ val &&& 1 ≠ 0 then
      (reads (σ.strBytes val)).map fun bytes => .string (Utf8.decodeLossy bytes)
    else if 0 < val.toInt ∧ val.toInt < minHeapPtr then .ok (.number (.ofI64 val))
    else if val.toInt < 0 then .ok (.number (.ofI64 val))
    else
      (reads (σ.slots val)).bind fun slot =>
        let kind := slot.kind rt.toRuntime
        if kind = AnyBinop.kindInt then .ok (.number (.ofI64 (slot.bits rt.toRuntime)))
        else if kind = kindFloat then
          .ok ((Number.fromF64 (slot.bits rt.toRuntime)).elim .null .number)
        else if kind = kindList ∨ kind = kindAnyList then
          (reads (σ.lists val)).bind fun words =>
            (decodeAll (oliveToJson rt depth σ) words).map .array
        else if kind = kindObj then
          (σ.fields val).bind fun (_, fields) =>
            (decodeEntries σ (oliveToJson rt depth σ) [] (rt.iterate fields)).map .object
        else .ok (.number (.ofI64 val))

end Json

end Dicts

end Olive
