import Olive.ByteLists
import Olive.Slices
import Olive.Ir

/-! Byte buffers: native blocks of memory, and payloads of Python that buffers share. -/

namespace Olive

namespace Buffers

open ByteLists StrMethods

/-- The raw parts of a vector: its address, the bytes in use and the size of its block. -/
structure Parts where
  ptr : Word
  len : Nat
  cap : Nat

/-- `OliveBytes`. A `py` that is not null is the object that the buffer borrows from. -/
structure OliveBytes extends Parts where
  py : Word

/-- A `PyBytes` object. The runtime does not see which of the references are foreign, that is, held by
no buffer. -/
structure PyBytes where
  parts : Parts
  refs : Nat
  foreign : Nat

structure Heap where
  /-- The blocks, by address. -/
  memory : Word → Option (List UInt8)
  /-- The live slots of the slab. -/
  slots : Word → Option OliveBytes
  objects : Word → Option PyBytes

inductive Stop where
  | panic
  | wild
  | outOfMemory
  deriving DecidableEq

abbrev Outcome (α : Type) := Except Stop α

/-- What leads nowhere is wild. -/
def reads {α : Type} (read : Option α) : Outcome α :=
  read.elim (.error .wild) .ok

/-- What the buffers call. -/
structure Runtime where
  /-- The address of a new block, none where the memory is full; no block is larger than a word says. -/
  malloc : Heap → Nat → Option Word
  malloc_fresh : ∀ σ n a, malloc σ n = some a → σ.memory a = none ∧ a ≠ 0 ∧ n < 2 ^ 63
  /-- What new memory holds. -/
  spare : Heap → Nat → List UInt8
  length_spare : ∀ σ n, (spare σ n).length = n
  /-- The size that a vector grows to. -/
  grow : Nat → Nat → Nat
  le_grow : ∀ cap needed, needed ≤ grow cap needed
  slot : Heap → Option Word
  slot_fresh : ∀ σ a, slot σ = some a → σ.slots a = none ∧ a ≠ 0
  /-- A new object of Python. -/
  object : Heap → Option Word
  object_fresh : ∀ σ a, object σ = some a → σ.objects a = none ∧ a ≠ 0

section Memory

variable (rt : Runtime) (σ : Heap)

def Heap.store (a : Word) (block : Option (List UInt8)) : Heap :=
  { σ with memory := Function.update σ.memory a block }

def Heap.put (buf : Word) (b : Option OliveBytes) : Heap :=
  { σ with slots := Function.update σ.slots buf b }

def Heap.keep (py : Word) (o : Option PyBytes) : Heap :=
  { σ with objects := Function.update σ.objects py o }

/-- `slice::from_raw_parts`. -/
def slice (ptr : Word) (len : Nat) : Option (List UInt8) :=
  if len = 0 then some []
  else (σ.memory ptr).bind fun block => if len ≤ block.length then some (block.take len) else none

/-- A copy of `data` into memory. -/
def poke (ptr : Word) (off : Nat) (data : List UInt8) : Outcome Heap :=
  if data = [] then .ok σ
  else
    (reads (σ.memory ptr)).bind fun block =>
      if off + data.length ≤ block.length then .ok (σ.store ptr (some (overwrite block off data)))
      else .error .wild

/-- The pointer of a vector without a block. -/
def dangling : Word := 1

def allocate (bytes : List UInt8) (cap : Nat) : Outcome (Heap × Parts) :=
  if cap = 0 then .ok (σ, ⟨dangling, bytes.length, 0⟩)
  else
    match rt.malloc σ cap with
    | none => .error .outOfMemory
    | some a =>
      .ok (σ.store a (some (bytes ++ rt.spare σ (cap - bytes.length))), ⟨a, bytes.length, cap⟩)

/-- The drop of a vector. -/
def dealloc (v : Parts) : Outcome Heap :=
  if v.cap = 0 then .ok σ
  else
    (reads (σ.memory v.ptr)).bind fun block =>
      if block.length = v.cap then .ok (σ.store v.ptr none) else .error .wild

/-- `to_vec`. -/
def toVec (data : List UInt8) : Outcome (Heap × Parts) :=
  allocate rt σ data data.length

/-- `Vec::reserve`; a block that is too small may move. -/
def reserve (v : Parts) (n : Nat) : Outcome (Heap × Parts) :=
  if v.len + n ≤ v.cap then .ok (σ, v)
  else
    (reads (slice σ v.ptr v.len)).bind fun bytes =>
      (dealloc σ v).bind fun σ => allocate rt σ bytes (rt.grow v.cap (v.len + n))

def extendFromSlice (data : List UInt8) (v : Parts) : Outcome (Heap × Parts) :=
  (reserve rt σ v data.length).bind fun (σ, v) =>
    (poke σ v.ptr v.len data).map fun σ => (σ, { v with len := v.len + data.length })

/-- `Vec::resize`, with zeros. -/
def resize (n : Nat) (v : Parts) : Outcome (Heap × Parts) :=
  if n ≤ v.len then .ok (σ, { v with len := n })
  else extendFromSlice rt σ (List.replicate (n - v.len) 0) v

/-- `olive_py_backing_release`; the last reference frees the object. -/
def olivePyBackingRelease (py : Word) : Outcome Heap :=
  if py = 0 then .ok σ
  else
    (reads (σ.objects py)).map fun o =>
      if o.refs ≤ 1 then (σ.keep py none).store o.parts.ptr none
      else σ.keep py (some { o with refs := o.refs - 1 })

def olivePyBackingIncref (py : Word) : Outcome Heap :=
  if py = 0 then .ok σ
  else (reads (σ.objects py)).map fun o => σ.keep py (some { o with refs := o.refs + 1 })

/-- The header of a buffer. -/
def Heap.header (buf : Word) : Outcome OliveBytes :=
  reads (σ.slots buf)

def OliveBytes.asSlice (b : OliveBytes) : Outcome (List UInt8) :=
  if b.ptr = 0 then .ok [] else reads (slice σ b.ptr b.len)

end Memory

section Headers

variable (rt : Runtime) (σ : Heap) (buf : Word)

def setVec (v : Parts) : Outcome Heap :=
  (σ.header buf).bind fun b =>
    (olivePyBackingRelease (σ.put buf (some { b with py := 0 })) b.py).map fun σ =>
      σ.put buf (some { toParts := v, py := 0 })

def realize : Outcome Heap :=
  (σ.header buf).bind fun b =>
    if b.py = 0 then .ok σ
    else
      (b.asSlice σ).bind fun data =>
        (toVec rt σ data).bind fun (σ, v) =>
          (setVec (σ.put buf (some { b with py := 0 })) buf v).bind fun σ => olivePyBackingRelease σ b.py

def takeVec : Outcome (Heap × Parts) :=
  (realize rt σ buf).bind fun σ =>
    (σ.header buf).map fun b =>
      (σ.put buf (some { ptr := 0, len := 0, cap := 0, py := b.py }), b.toParts)

def withVec (f : Heap → Parts → Outcome (Heap × Parts)) : Outcome Heap :=
  (takeVec rt σ buf).bind fun (σ, v) => (f σ v).bind fun (σ, v) => setVec σ buf v

/-- `as_mut_slice`, and a copy into it. -/
def copyFromSlice (off : Nat) (data : List UInt8) : Outcome Heap :=
  (realize rt σ buf).bind fun σ =>
    (σ.header buf).bind fun b =>
      if b.ptr = 0 ∨ b.len < off + data.length then .error .panic else poke σ b.ptr off data

def append (data : List UInt8) : Outcome Heap :=
  (realize rt σ buf).bind fun σ =>
    (σ.header buf).bind fun b =>
      if b.len + data.length ≤ b.cap then
        (poke σ b.ptr b.len data).map fun σ =>
          σ.put buf (some { b with len := b.len + data.length })
      else withVec rt σ buf fun σ v => extendFromSlice rt σ data v

def allocSlot (b : OliveBytes) : Outcome (Heap × Word) :=
  match rt.slot σ with
  | none => .error .outOfMemory
  | some a => .ok (σ.put a (some b), a)

/-- `new_buf`, of a vector. -/
def newVec (v : Parts) : Outcome (Heap × Word) :=
  allocSlot rt σ { toParts := v, py := 0 }

def newBuf (data : List UInt8) : Outcome (Heap × Word) :=
  (toVec rt σ data).bind fun (σ, v) => newVec rt σ v

def newBufPyBacked (py ptr : Word) (len : Nat) : Outcome (Heap × Word) :=
  allocSlot rt σ { ptr := ptr, len := len, cap := 0, py := py }

def cloneBuf (src : Word) : Outcome (Heap × Word) :=
  (σ.header src).bind fun b =>
    if b.py = 0 then (b.asSlice σ).bind (newBuf rt σ)
    else
      (olivePyBackingIncref σ b.py).bind fun σ =>
        allocSlot rt σ { ptr := b.ptr, len := b.len, cap := 0, py := b.py }

/-- `olive_py_bytes_wrap_exact`, of an exact `PyBytes`. -/
def olivePyBytesWrapExact (obj : Word) : Outcome (Heap × Word) :=
  (reads (σ.objects obj)).bind fun o =>
    (olivePyBackingIncref σ obj).bind fun σ => newBufPyBacked rt σ obj o.parts.ptr o.parts.len

/-- A `PyBytes` object that Python makes; a zero byte ends it. -/
def newPyBytes (bytes : List UInt8) : Outcome (Heap × Word) :=
  match rt.malloc σ (bytes.length + 1) with
  | none => .error .outOfMemory
  | some a =>
    match rt.object (σ.store a (some (bytes ++ [0]))) with
    | none => .error .outOfMemory
    | some py =>
      .ok ((σ.store a (some (bytes ++ [0]))).keep py
        (some ⟨⟨a, bytes.length, bytes.length + 1⟩, 1, 1⟩), py)

end Headers

section Functions

variable (rt : Runtime) (σ : Heap)

def oliveBufNew (cap : Word) : Outcome (Heap × Word) :=
  (allocate rt σ [] (max cap.toInt 0).toNat).bind fun (σ, v) => newVec rt σ v

def oliveBufNewZeroed (len : Word) : Outcome (Heap × Word) :=
  newBuf rt σ (List.replicate (max len.toInt 0).toNat 0)

def oliveBufLen (buf : Word) : Outcome Nat :=
  if buf = 0 then .ok 0 else (σ.header buf).map fun b => b.len

/-- `push`, `push_u16_le` and `push_u32_le`, by the number of bytes. -/
def pushLe (w : Nat) (buf val : Word) : Outcome Heap :=
  if buf = 0 then .ok σ else append rt σ buf (toBytes .little w val.toNat)

def oliveBufPush (buf byte : Word) : Outcome Heap :=
  pushLe rt σ 1 buf (byte &&& 0xff)

def oliveBufPushU16Le (buf val : Word) : Outcome Heap :=
  pushLe rt σ 2 buf val

def oliveBufPushU32Le (buf val : Word) : Outcome Heap :=
  pushLe rt σ 4 buf val

def oliveBufGet (buf idx : Word) : Outcome Word :=
  if buf = 0 ∨ idx.toInt < 0 then .ok (-1)
  else
    (σ.header buf).bind fun b =>
      (b.asSlice σ).map fun data =>
        (data[idx.toInt.toNat]?).elim (-1) fun v => BitVec.ofNat 64 v.toNat

def oliveBufSet (buf idx val : Word) : Outcome Heap :=
  if buf = 0 ∨ idx.toInt < 0 then .ok σ
  else
    (σ.header buf).bind fun b =>
      if idx.toInt < b.len then
        copyFromSlice rt σ buf idx.toInt.toNat [UInt8.ofNat (val &&& 0xff).toNat]
      else .ok σ

/-- What `concat` reads of an operand. -/
def operand (buf : Word) : Outcome (List UInt8) :=
  if buf = 0 then .ok [] else (σ.header buf).bind fun b => b.asSlice σ

def oliveBufConcat (a b : Word) : Outcome (Heap × Word) :=
  (operand σ a).bind fun da =>
    (operand σ b).bind fun db =>
      newBuf rt σ (da ++ db)

def oliveBufSlice (buf start stop : Word) : Outcome (Heap × Word) :=
  if buf = 0 then newBuf rt σ []
  else
    (σ.header buf).bind fun b =>
      (b.asSlice σ).bind fun data =>
        let s := min (max start.toInt 0).toNat data.length
        let e := min (max stop.toInt 0).toNat data.length
        if e < s then newBuf rt σ [] else newBuf rt σ ((data.take e).drop s)

/-- The loop is that of the slices of lists. -/
def oliveBufGetslice (buf start stop step flags : Word) : Outcome (Heap × Word) :=
  if buf = 0 then newBuf rt σ []
  else
    (σ.header buf).bind fun b =>
      (b.asSlice σ).bind fun data =>
        ((sliceOf data (Slice.ofFlags start.toInt stop.toInt step.toInt flags)).elim (.error .panic)
          fun out => newBuf rt σ out)

def oliveBufFree (buf : Word) : Outcome Heap :=
  if buf = 0 then .ok σ
  else
    match σ.slots buf with
    | none => .ok σ
    | some b =>
      (if b.py = 0 then (takeVec rt σ buf).bind fun (σ, v) => dealloc σ v
        else olivePyBackingRelease (σ.put buf (some { ptr := 0, len := 0, cap := 0, py := 0 })) b.py).map
          fun σ => σ.put buf none

def readBytes (n : Nat) (buf offset : Word) : Outcome (Option (List UInt8)) :=
  if buf = 0 ∨ offset.toInt < 0 ∨ 2 ^ 63 ≤ offset.toInt + n then .ok none
  else
    (σ.header buf).bind fun b =>
      if (b.len : Int) < offset.toInt + n then .ok none
      else (b.asSlice σ).map fun data => some ((data.drop offset.toInt.toNat).take n)

/-- A read of `n` bytes. -/
def readNumber (order : Order) (n : Nat) (buf offset : Word) : Outcome Word :=
  (readBytes σ n buf offset).map fun bytes =>
    bytes.elim (-1) fun bytes => BitVec.ofNat 64 (ofBytes order bytes)

def oliveBufReadU16Le (buf offset : Word) : Outcome Word := readNumber σ .little 2 buf offset

def oliveBufReadU16Be (buf offset : Word) : Outcome Word := readNumber σ .big 2 buf offset

def oliveBufReadU32Le (buf offset : Word) : Outcome Word := readNumber σ .little 4 buf offset

def oliveBufReadU32Be (buf offset : Word) : Outcome Word := readNumber σ .big 4 buf offset

def oliveBufReadU64Le (buf offset : Word) : Outcome Word := readNumber σ .little 8 buf offset

def oliveBufReadU64Be (buf offset : Word) : Outcome Word := readNumber σ .big 8 buf offset

def writeBytes (buf offset : Word) (data : List UInt8) : Outcome Heap :=
  if buf = 0 ∨ offset.toInt < 0 ∨ 2 ^ 31 ≤ data.length ∨ 2 ^ 63 ≤ offset.toInt + data.length then .ok σ
  else
    (σ.header buf).bind fun b =>
      let off := offset.toInt.toNat
      if off + data.length ≤ b.len then copyFromSlice rt σ buf off data
      else
        withVec rt σ buf fun σ v =>
          (resize rt σ (off + data.length) v).bind fun (σ, v) =>
            (poke σ v.ptr off data).map fun σ => (σ, v)

def oliveBufWriteU16Le (buf offset val : Word) : Outcome Heap :=
  writeBytes rt σ buf offset (toBytes .little 2 val.toNat)

def oliveBufWriteU16Be (buf offset val : Word) : Outcome Heap :=
  writeBytes rt σ buf offset (toBytes .big 2 val.toNat)

def oliveBufWriteU32Le (buf offset val : Word) : Outcome Heap :=
  writeBytes rt σ buf offset (toBytes .little 4 val.toNat)

def oliveBufWriteU32Be (buf offset val : Word) : Outcome Heap :=
  writeBytes rt σ buf offset (toBytes .big 4 val.toNat)

def oliveBufWriteU64Le (buf offset val : Word) : Outcome Heap :=
  writeBytes rt σ buf offset (toBytes .little 8 val.toNat)

def oliveBufWriteU64Be (buf offset val : Word) : Outcome Heap :=
  writeBytes rt σ buf offset (toBytes .big 8 val.toNat)

end Functions

section Examples

/-- Some room for blocks, buffers and objects. -/
def smallHeap : Runtime where
  malloc σ n := if n < 2 ^ 63 then [0x1000, 0x2000, 0x3000].find? fun a => (σ.memory a).isNone else none
  malloc_fresh σ n a h := by
    split_ifs at h with hsmall
    have hfound := List.find?_some h
    have hmem := List.mem_of_find?_eq_some h
    refine ⟨Option.isNone_iff_eq_none.mp hfound, ?_, hsmall⟩
    rintro rfl
    simp at hmem
  spare _ n := List.replicate n 0
  length_spare _ _ := List.length_replicate
  grow cap needed := max (2 * cap) needed
  le_grow cap needed := Nat.le_max_right _ _
  slot σ := [0x10, 0x20, 0x30].find? fun a => (σ.slots a).isNone
  slot_fresh σ a h := by
    have hfound := List.find?_some h
    have hmem := List.mem_of_find?_eq_some h
    refine ⟨Option.isNone_iff_eq_none.mp hfound, ?_⟩
    rintro rfl
    simp at hmem
  object σ := [0x100, 0x200].find? fun a => (σ.objects a).isNone
  object_fresh σ a h := by
    have hfound := List.find?_some h
    have hmem := List.mem_of_find?_eq_some h
    refine ⟨Option.isNone_iff_eq_none.mp hfound, ?_⟩
    rintro rfl
    simp at hmem

def emptyHeap : Heap where
  memory _ := none
  slots _ := none
  objects _ := none

end Examples

end Buffers

end Olive
