import Olive.HashSets
import Olive.HashTyped

/-! `OliveHashSet`: a vector of elements, and beside it the hash set that finds them. -/

namespace Olive

open HashTable

structure OliveHashSet where
  /-- The first `len` words at `ptr`. -/
  elems : List Word
  inner : KeySet Word Word

namespace RuntimeSets

/-- A snapshot of a set's elements is a list. -/
inductive Object where
  | set (s : OliveHashSet)
  | list (items : List Word)

/-- The objects in the order in which they are made. -/
abbrev Store := List Object

/-- 0 is null, and `i + 1` the object at `i`. -/
abbrev Pointer := Nat

def readSet (store : Store) : Pointer → Option OliveHashSet
  | 0 => none
  | i + 1 =>
    match store[i]? with
    | some (.set s) => some s
    | _ => none

def writeSet (store : Store) (s : OliveHashSet) : Pointer → Store
  | 0 => store
  | i + 1 => store.set i (.set s)

def alloc (store : Store) (o : Object) : Store × Pointer := (store ++ [o], store.length + 1)

def empty : OliveHashSet := ⟨[], []⟩

def oliveSetNew (store : Store) : Store × Pointer := alloc store (.set empty)

def oliveSetItems (store : Store) (p : Pointer) : Option (Store × Pointer) :=
  if p = 0 then some (alloc store (.list []))
  else do
    let s ← readSet store p
    some (alloc store (.list s.elems))

/-- `olive_clear_typed`; the elements it frees are no set's. -/
def oliveClearTyped (store : Store) (p : Pointer) : Option Store :=
  if p = 0 then some store
  else do
    let _ ← readSet store p
    some (writeSet store empty p)

/-- The inner hash set is left as it is. -/
def oliveSetNewReuse (store : Store) (p : Pointer) : Option (Store × Pointer) :=
  if p = 0 then some (oliveSetNew store)
  else do
    let s ← readSet store p
    some (writeSet store { s with elems := [] } p, p)

def oliveSetClear (store : Store) (p : Pointer) : Option (Store × Pointer) :=
  if p = 0 then some (store, p)
  else do
    let _ ← readSet store p
    some (writeSet store empty p, p)

section Keys

variable (hash : Word → Option Word) (eq : Word → Word → Option Bool)

/-- The vector grows where the hash set took the key for a new one. -/
def addKey (s : OliveHashSet) (val : Word) : Option OliveHashSet := do
  let (inner, new) ← insertKey hash eq s.inner val
  some ⟨if new then s.elems ++ [val] else s.elems, inner⟩

def oliveSetAdd (store : Store) (p : Pointer) (val : Word) : Option Store :=
  if p = 0 then some store
  else do
    let s ← addKey hash eq (← readSet store p) val
    some (writeSet store s p)

def oliveSetContains (store : Store) (p : Pointer) (val : Word) : Option Bool :=
  if p = 0 then some false
  else do
    let s ← readSet store p
    contains hash eq s.inner val

def dropKey (s : OliveHashSet) (val : Word) : Option OliveHashSet := do
  let (inner, present) ← removeKey hash eq s.inner val
  if present then
    let pos ← position eq val s.elems
    some ⟨pos.elim s.elems s.elems.eraseIdx, inner⟩
  else some { s with inner }

def oliveSetRemove (store : Store) (p : Pointer) (val : Word) : Option (Store × Word) :=
  if p = 0 then some (store, 0)
  else do
    let s ← dropKey hash eq (← readSet store p) val
    some (writeSet store s p, val)

/-- `olive_bounds_fail` gets the length and index 0. -/
def oliveSetRemoveChecked (store : Store) (p : Pointer) (val : Word) :
    Option (Store × Except Nat Word) :=
  if p = 0 then some (store, .error 0)
  else do
    let s ← readSet store p
    if ← contains hash eq s.inner val then
      let (store, val) ← oliveSetRemove hash eq store p val
      some (store, .ok val)
    else some (store, .error s.elems.length)

/-- Adds the values that `keep` takes. -/
def addWhere (keep : Word → Option Bool) : List Word → OliveHashSet → Option OliveHashSet
  | [], s => some s
  | val :: rest, s => do
    if ← keep val then addWhere keep rest (← addKey hash eq s val) else addWhere keep rest s

def keepAll (_ : Word) : Option Bool := some true

def keepIn (s : OliveHashSet) (val : Word) : Option Bool := contains hash eq s.inner val

def keepOut (s : OliveHashSet) (val : Word) : Option Bool := (contains hash eq s.inner val).map (!·)

def oliveSetUnion (store : Store) (a b : Pointer) : Option (Store × Pointer) :=
  if a = 0 then oliveSetItems store b
  else if b = 0 then oliveSetItems store a
  else do
    let sa ← readSet store a
    let sb ← readSet store b
    let result ← addWhere hash eq keepAll sa.elems empty
    let result ← addWhere hash eq keepAll sb.elems result
    some (alloc store (.set result))

def oliveSetIntersection (store : Store) (a b : Pointer) : Option (Store × Pointer) :=
  if a = 0 ∨ b = 0 then some (oliveSetNew store)
  else do
    let sa ← readSet store a
    let sb ← readSet store b
    let result ← addWhere hash eq (keepIn hash eq sb) sa.elems empty
    some (alloc store (.set result))

def oliveSetDiff (store : Store) (a b : Pointer) : Option (Store × Pointer) :=
  if a = 0 then some (oliveSetNew store)
  else if b = 0 then oliveSetItems store a
  else do
    let sa ← readSet store a
    let sb ← readSet store b
    let result ← addWhere hash eq (keepOut hash eq sb) sa.elems empty
    some (alloc store (.set result))

def oliveSetSymDiff (store : Store) (a b : Pointer) : Option (Store × Pointer) :=
  if a = 0 then oliveSetItems store b
  else if b = 0 then oliveSetItems store a
  else do
    let sa ← readSet store a
    let sb ← readSet store b
    let result ← addWhere hash eq (keepOut hash eq sb) sa.elems empty
    let result ← addWhere hash eq (keepOut hash eq sa) sb.elems result
    some (alloc store (.set result))

def copySet (copyVal : Word → Word) (store : Store) (p : Pointer) : Option (Store × Pointer) :=
  if p = 0 then some (store, 0)
  else do
    let s ← readSet store p
    let result ← addWhere hash eq keepAll (s.elems.map copyVal) empty
    some (alloc store (.set result))

end Keys

section Modes

variable (h : TypedHeap) (fx : FxHasher) (fuel : Nat)

/-- `OliveStringKey::hash`, with the key descriptor that is active, if one is. -/
def activeHash : Option Shape → Word → Option Word
  | some s => HashTyped.keyHash h fx fuel s
  | none => fun w =>
    some (match HashTyped.classifyKey h w with
      | .str bytes => fx.finish (fx.write (fx.writeU64 fx.start (BitVec.ofNat 64 bytes.length)) bytes)
      | .scalar kind bits => fx.finish (fx.writeU64 (fx.writeU64 fx.start kind) bits)
      | .raw w => fx.finish (fx.writeU64 fx.start w))

/-- `OliveStringKey::eq`. Two raw words that differ are unequal where no descriptor is active. -/
def activeEq : Option Shape → Word → Word → Option Bool
  | some s => HashTyped.keyEq h fuel s
  | none => fun a b =>
    if a = b then some true
    else
      match HashTyped.classifyKey h a, HashTyped.classifyKey h b with
      | .str x, .str y => some (decide (x = y))
      | .scalar k x, .scalar k' y => some (decide (k = k' ∧ x = y))
      | _, _ => some false

/-- The typed variants have a key descriptor. -/
inductive Op where
  | new
  | add (desc : Option Shape) (p : Pointer) (val : Word)
  | remove (desc : Option Shape) (p : Pointer) (val : Word)
  | removeChecked (desc : Option Shape) (p : Pointer) (val : Word)
  | clear (p : Pointer)
  | union (a b : Pointer)
  | intersection (a b : Pointer)
  | diff (a b : Pointer)
  | symDiff (a b : Pointer)
  | copy (p : Pointer)
  /-- `olive_clear_typed`, then `olive_set_new_reuse`. -/
  | recycle (p : Pointer)

/-- The state after an operation, and the set it is about. The set algebra and `copy` run with no
descriptor. -/
def step (copyVal : Word → Word) (store : Store) : Op → Option (Store × Pointer)
  | .new => some (oliveSetNew store)
  | .add desc p val => (oliveSetAdd (activeHash h fx fuel desc) (activeEq h fuel desc) store p val).map (·, p)
  | .remove desc p val =>
    (oliveSetRemove (activeHash h fx fuel desc) (activeEq h fuel desc) store p val).map (·.1, p)
  | .removeChecked desc p val =>
    (oliveSetRemoveChecked (activeHash h fx fuel desc) (activeEq h fuel desc) store p val).map (·.1, p)
  | .clear p => oliveSetClear store p
  | .union a b => oliveSetUnion (activeHash h fx fuel none) (activeEq h fuel none) store a b
  | .intersection a b => oliveSetIntersection (activeHash h fx fuel none) (activeEq h fuel none) store a b
  | .diff a b => oliveSetDiff (activeHash h fx fuel none) (activeEq h fuel none) store a b
  | .symDiff a b => oliveSetSymDiff (activeHash h fx fuel none) (activeEq h fuel none) store a b
  | .copy p => copySet (activeHash h fx fuel none) (activeEq h fuel none) copyVal store p
  | .recycle p => do
    let store ← oliveClearTyped store p
    oliveSetNewReuse store p

end Modes

end RuntimeSets

end Olive
