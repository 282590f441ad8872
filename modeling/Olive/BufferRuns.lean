import Olive.BufferOwners

/-! Runs of the operations on byte buffers, and the lists of bytes that they stand for. -/

namespace Olive

namespace Buffers

open ByteLists StrMethods

inductive Width where
  | u16
  | u32
  | u64

def Width.bytes : Width → Nat
  | .u16 => 2
  | .u32 => 4
  | .u64 => 8

/-- The operations on buffers, and what Python does with objects of its own. -/
inductive Op where
  | new (cap : Word)
  | newZeroed (len : Word)
  | push (buf byte : Word)
  | pushU16Le (buf val : Word)
  | pushU32Le (buf val : Word)
  | append (buf : Word) (data : List UInt8)
  | set (buf idx val : Word)
  | write (order : Order) (width : Width) (buf offset val : Word)
  | concat (a b : Word)
  | slice (buf start stop : Word)
  | getslice (buf start stop step flags : Word)
  | cloneBuf (src : Word)
  | realize (buf : Word)
  | free (buf : Word)
  | len (buf : Word)
  | get (buf idx : Word)
  | read (order : Order) (width : Width) (buf offset : Word)
  | pyBytes (bytes : List UInt8)
  | pyWrap (obj : Word)
  | pyIncref (obj : Word)
  | pyDecref (obj : Word)

inductive Answer where
  | done
  | word (w : Word)
  | count (n : Nat)

def oliveBufWrite (rt : Runtime) (σ : Heap) : Order → Width → Word → Word → Word → Outcome Heap
  | .little, .u16 => oliveBufWriteU16Le rt σ
  | .big, .u16 => oliveBufWriteU16Be rt σ
  | .little, .u32 => oliveBufWriteU32Le rt σ
  | .big, .u32 => oliveBufWriteU32Be rt σ
  | .little, .u64 => oliveBufWriteU64Le rt σ
  | .big, .u64 => oliveBufWriteU64Be rt σ

def oliveBufRead (σ : Heap) : Order → Width → Word → Word → Outcome Word
  | .little, .u16 => oliveBufReadU16Le σ
  | .big, .u16 => oliveBufReadU16Be σ
  | .little, .u32 => oliveBufReadU32Le σ
  | .big, .u32 => oliveBufReadU32Be σ
  | .little, .u64 => oliveBufReadU64Le σ
  | .big, .u64 => oliveBufReadU64Be σ

/-- Python takes a reference more, or gives one of its own back. -/
def pyIncref (σ : Heap) (obj : Word) : Outcome Heap :=
  (reads (σ.objects obj)).map fun o =>
    σ.keep obj (some { o with refs := o.refs + 1, foreign := o.foreign + 1 })

def pyDecref (σ : Heap) (obj : Word) : Outcome Heap :=
  (reads (σ.objects obj)).bind fun o =>
    olivePyBackingRelease (σ.keep obj (some { o with foreign := o.foreign - 1 })) obj

def answered {α : Type} (answer : α → Answer) (r : Outcome (Heap × α)) : Outcome (Heap × Answer) :=
  r.map fun (σ, x) => (σ, answer x)

def done (r : Outcome Heap) : Outcome (Heap × Answer) :=
  r.map fun σ => (σ, .done)

def read {α : Type} (σ : Heap) (answer : α → Answer) (r : Outcome α) : Outcome (Heap × Answer) :=
  r.map fun x => (σ, answer x)

def step (rt : Runtime) (σ : Heap) : Op → Outcome (Heap × Answer)
  | .new cap => answered .word (oliveBufNew rt σ cap)
  | .newZeroed len => answered .word (oliveBufNewZeroed rt σ len)
  | .push buf byte => done (oliveBufPush rt σ buf byte)
  | .pushU16Le buf val => done (oliveBufPushU16Le rt σ buf val)
  | .pushU32Le buf val => done (oliveBufPushU32Le rt σ buf val)
  | .append buf data => done (append rt σ buf data)
  | .set buf idx val => done (oliveBufSet rt σ buf idx val)
  | .write order width buf offset val => done (oliveBufWrite rt σ order width buf offset val)
  | .concat a b => answered .word (oliveBufConcat rt σ a b)
  | .slice buf start stop => answered .word (oliveBufSlice rt σ buf start stop)
  | .getslice buf start stop step flags => answered .word (oliveBufGetslice rt σ buf start stop step flags)
  | .cloneBuf src => answered .word (cloneBuf rt σ src)
  | .realize buf => done (realize rt σ buf)
  | .free buf => done (oliveBufFree rt σ buf)
  | .len buf => read σ .count (oliveBufLen σ buf)
  | .get buf idx => read σ .word (oliveBufGet σ buf idx)
  | .read order width buf offset => read σ .word (oliveBufRead σ order width buf offset)
  | .pyBytes bytes => answered .word (newPyBytes rt σ bytes)
  | .pyWrap obj => answered .word (olivePyBytesWrapExact rt σ obj)
  | .pyIncref obj => done (pyIncref σ obj)
  | .pyDecref obj => done (pyDecref σ obj)

/-- The bytes of the buffer that an operation changes, after it. -/
def edited (bytes : List UInt8) : Op → List UInt8
  | .push _ byte => bytes ++ [UInt8.ofNat byte.toNat]
  | .pushU16Le _ val => bytes ++ toBytes .little 2 val.toNat
  | .pushU32Le _ val => bytes ++ toBytes .little 4 val.toNat
  | .append _ data => bytes ++ data
  | .set _ idx val =>
    if 0 ≤ idx.toInt ∧ idx.toInt < bytes.length then bytes.set idx.toInt.toNat (UInt8.ofNat val.toNat)
    else bytes
  | .write order width _ offset val =>
    if 0 ≤ offset.toInt ∧ offset.toInt + width.bytes < 2 ^ 63 then
      writeAt 0 bytes offset.toInt.toNat (toBytes order width.bytes val.toNat)
    else bytes
  | _ => bytes

/-- The number at an offset, or -1. -/
def numberAt (order : Order) (width : Width) (bytes : List UInt8) (offset : Word) : Word :=
  if 0 ≤ offset.toInt ∧ offset.toInt + width.bytes ≤ bytes.length then
    BitVec.ofNat 64 (ofBytes order ((bytes.drop offset.toInt.toNat).take width.bytes))
  else -1

/-- A new buffer with bytes of its own. -/
def Creates (σ : Heap) (bytes : List UInt8) (σ' : Heap) (answer : Answer) : Prop :=
  ∃ buf, answer = .word buf ∧ σ.slots buf = none ∧
    contents σ' = Function.update (contents σ) buf (some bytes)

/-- The buffer at `buf` changes, and no other. -/
def Edits (σ : Heap) (op : Op) (buf : Word) (σ' : Heap) : Prop :=
  ∃ bytes, contents σ buf = some bytes ∧
    contents σ' = Function.update (contents σ) buf (some (edited bytes op))

/-- An answer from the bytes of a buffer, which changes nothing. -/
def Tells (σ : Heap) (buf : Word) (tell : List UInt8 → Answer) (σ' : Heap) (answer : Answer) : Prop :=
  ∃ bytes, contents σ buf = some bytes ∧ answer = tell bytes ∧ contents σ' = contents σ ∧ Shared σ σ'

/-- No buffer and no object that stays changes. -/
def Quiet (σ σ' : Heap) : Prop :=
  contents σ' = contents σ ∧
    ∀ q, (σ.objects q).isSome → (σ'.objects q).isSome → payload σ' q = payload σ q

/-- The effect of an operation is the one on independent lists of bytes. -/
def Right (σ : Heap) (op : Op) (σ' : Heap) (answer : Answer) : Prop :=
  match op with
  | .new _ => Creates σ [] σ' answer ∧ Shared σ σ'
  | .newZeroed len => Creates σ (List.replicate len.toInt.toNat 0) σ' answer ∧ Shared σ σ'
  | .push buf _ | .pushU16Le buf _ | .pushU32Le buf _ | .append buf _ | .set buf _ _ | .write _ _ buf _ _ |
    .realize buf => Edits σ op buf σ' ∧ Shared σ σ'
  | .free buf => contents σ' = Function.update (contents σ) buf none ∧ Shared σ σ'
  | .concat a b => ∃ x y, contents σ a = some x ∧ contents σ b = some y ∧ Creates σ (x ++ y) σ' answer ∧
      Shared σ σ'
  | .slice buf start stop => ∃ bytes, contents σ buf = some bytes ∧
      Creates σ ((bytes.take stop.toInt.toNat).drop start.toInt.toNat) σ' answer ∧ Shared σ σ'
  | .getslice buf start stop step flags => ∃ bytes, contents σ buf = some bytes ∧
      Creates σ ((Slice.ofFlags start.toInt stop.toInt step.toInt flags).pyItems bytes) σ' answer ∧
        Shared σ σ'
  | .cloneBuf src => ∃ bytes, contents σ src = some bytes ∧ Creates σ bytes σ' answer ∧ Shared σ σ'
  | .len buf => Tells σ buf (fun bytes => .count bytes.length) σ' answer
  | .get buf idx => Tells σ buf (fun bytes => .word (if 0 ≤ idx.toInt then
      (bytes[idx.toInt.toNat]?).elim (-1) fun v => BitVec.ofNat 64 v.toNat else -1)) σ' answer
  | .read order width buf offset =>
    Tells σ buf (fun bytes => .word (numberAt order width bytes offset)) σ' answer
  | .pyBytes bytes => ∃ obj, answer = .word obj ∧ σ.objects obj = none ∧ payload σ' obj = some bytes ∧
      Quiet σ σ'
  | .pyWrap obj => ∃ bytes, payload σ obj = some bytes ∧ Creates σ bytes σ' answer ∧ Shared σ σ'
  | .pyIncref _ | .pyDecref _ => Quiet σ σ'

def Op.buffers : Op → List Word
  | .push buf _ | .pushU16Le buf _ | .pushU32Le buf _ | .append buf _ | .set buf _ _ | .write _ _ buf _ _
  | .realize buf | .free buf | .slice buf _ _ | .getslice buf _ _ _ _ | .cloneBuf buf | .len buf | .get buf _
  | .read _ _ buf _ => [buf]
  | .concat a b => [a, b]
  | _ => []

/-- What the program keeps to: the buffers are live, a step of a slice is not zero, and Python has a
reference to the object that it works with. -/
def Fits (σ : Heap) (op : Op) : Prop :=
  (∀ buf ∈ op.buffers, ∃ b, σ.slots buf = some b) ∧
  match op with
  | .getslice _ start stop step flags => (Slice.ofFlags start.toInt stop.toInt step.toInt flags).stride ≠ 0
  | .pyWrap obj | .pyIncref obj | .pyDecref obj => ∃ o, σ.objects obj = some o ∧ 0 < o.foreign
  | _ => True

/-- No selected index of a slice is so near the largest word that the step leaves it. -/
def Clean (σ : Heap) : Op → Prop
  | .getslice buf start stop step flags => ∀ bytes, contents σ buf = some bytes →
      ∀ i ∈ (Slice.ofFlags start.toInt stop.toInt step.toInt flags).pyIndices bytes.length,
        i + (Slice.ofFlags start.toInt stop.toInt step.toInt flags).stride < 2 ^ 63
  | _ => True

/-- A heap without buffers and without objects of Python. -/
structure Start (σ : Heap) : Prop where
  slots : ∀ buf, σ.slots buf = none
  objects : ∀ py, σ.objects py = none

/-- The states that clean steps reach. -/
inductive Run (rt : Runtime) (σ₀ : Heap) : Heap → Prop where
  | start : Run rt σ₀ σ₀
  | step {σ σ' : Heap} {op : Op} {answer : Answer} (before : Run rt σ₀ σ) (fits : Fits σ op)
      (clean : Clean σ op) (taken : step rt σ op = .ok (σ', answer)) : Run rt σ₀ σ'

/-- Every reference is counted, each buffer that borrows has one, and none is to an object that is gone. -/
structure References (σ : Heap) : Prop where
  counted : ∀ py o, σ.objects py = some o → Counted .nothing σ py o
  backed : ∀ buf b, σ.slots buf = some b → b.py ≠ 0 → ∃ o, Backed σ b o

/-- An operation goes through unless the memory is full, and does what it does on lists of bytes. -/
def Refines (rt : Runtime) (σ : Heap) (op : Op) : Prop :=
  step rt σ op = .error .outOfMemory ∨
    ∃ σ' answer, step rt σ op = .ok (σ', answer) ∧ Right σ op σ' answer

end Buffers

end Olive
