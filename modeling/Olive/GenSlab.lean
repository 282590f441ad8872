import Olive.ChunkTable
import Olive.Linked

/-! `GenSlab`: slots with a generation word, in chunks that are given out from the front and, once
freed, through a list that runs through the slots. -/

namespace Olive

open Linked (Memory)

/-- The words of the memory, the chunks' live counters, both by address, and the chunk table. -/
structure SlabHeap where
  mem : Memory
  liveCounts : Nat → Nat
  index : ChunkIndex

structure GenSlab where
  freeHead : Nat
  bump : Nat
  bumpEnd : Nat
  slotBytes : Nat
  activeLiveCount : Nat
  chunks : List (Nat × Nat)
  /-- Whether the slab itself lies within `GLOBAL_SLABS`. -/
  isGlobal : Bool

def GenSlab.new (bodyBytes : Nat) (isGlobal : Bool) : GenSlab :=
  ⟨0, 0, 0, 16 + (bodyBytes + 7) / 8 * 8, 0, [], isGlobal⟩

def chunkTarget : Nat := 2 ^ 16

def GenSlab.slots (sl : GenSlab) : Nat := max (chunkTarget / sl.slotBytes) 1

def GenSlab.chunkBytes (sl : GenSlab) : Nat := sl.slots * sl.slotBytes

/-- The loop of `grow` over the slots of a new chunk. -/
def zeroGenerations (slotBytes : Nat) : Nat → Nat → Memory → Memory
  | 0, _, mem => mem
  | n + 1, ptr, mem =>
    zeroGenerations slotBytes n (ptr + slotBytes) (Function.update mem (ptr + 8) 0)

/-- `chunk` and `counter` are what the allocator has returned for the chunk and its counter. -/
def GenSlab.grow (sl : GenSlab) (h : SlabHeap) (chunk counter : Nat) : GenSlab × SlabHeap :=
  ({ sl with
      bump := chunk
      bumpEnd := chunk + sl.chunkBytes
      activeLiveCount := counter
      chunks := sl.chunks ++ [(chunk, sl.chunkBytes)] },
    { mem := zeroGenerations sl.slotBytes sl.slots chunk h.mem
      liveCounts := Function.update h.liveCounts counter 0
      index := registerChunk h.index
        ⟨chunk, chunk + sl.chunkBytes, sl.slotBytes, counter, sl.isGlobal⟩ })

def SlabHeap.fetchAdd (h : SlabHeap) (counter : Nat) : SlabHeap :=
  { h with liveCounts := Function.update h.liveCounts counter (h.liveCounts counter + 1) }

/-- `alloc` from the free list. -/
def GenSlab.allocFreed (sl : GenSlab) (h : SlabHeap) (th : SlabThread) :
    (Nat × Bool) × GenSlab × SlabHeap :=
  let head := sl.freeHead
  let body := head + 16
  let g := (h.mem (head + 8) + 1) % 2 ^ 64
  let (found, index) := findChunkForAddr h.index th body
  let h' := { h with mem := Function.update h.mem (head + 8) g, index := index }
  ((body, false), { sl with freeHead := h.mem body },
    match found with
    | some c => h'.fetchAdd c.liveCount
    | none => h')

/-- `alloc` from the chunk that is being given out. -/
def GenSlab.allocBump (sl : GenSlab) (h : SlabHeap) : (Nat × Bool) × GenSlab × SlabHeap :=
  let h' := { h with mem := Function.update h.mem (sl.bump + 8) 1 }
  ((sl.bump + 16, true), { sl with bump := sl.bump + sl.slotBytes },
    if sl.activeLiveCount = 0 then h' else h'.fetchAdd sl.activeLiveCount)

/-- Whether `alloc` needs a new chunk. -/
def GenSlab.Grows (sl : GenSlab) : Prop :=
  sl.freeHead = 0 ∧ (sl.bump = 0 ∨ sl.bumpEnd < sl.bump + sl.slotBytes)

instance (sl : GenSlab) : Decidable sl.Grows := inferInstanceAs (Decidable (_ ∧ _))

def GenSlab.alloc (sl : GenSlab) (h : SlabHeap) (th : SlabThread) (chunk counter : Nat) :
    (Nat × Bool) × GenSlab × SlabHeap :=
  if sl.freeHead ≠ 0 then sl.allocFreed h th
  else if sl.Grows then (sl.grow h chunk counter).1.allocBump (sl.grow h chunk counter).2
  else sl.allocBump h

/-- Enough steps for a loop over a free list without a repetition. -/
def GenSlab.fuel (sl : GenSlab) : Nat := sl.chunks.length * sl.slots + 1

def inChunk (start «end» addr : Nat) : Bool := start ≤ addr && addr < «end»

def GenSlab.countChunkSlots (sl : GenSlab) (mem : Memory) (start «end» : Nat) : Option Nat :=
  Linked.walk mem 16 (fun count curr => if inChunk start «end» curr then count + 1 else count)
    sl.fuel sl.freeHead 0

def GenSlab.unlinkChunkSlots (sl : GenSlab) (mem : Memory) (start «end» : Nat) :
    Option Linked.Chain :=
  Linked.remove 16 (inChunk start «end») sl.fuel .head sl.freeHead ⟨sl.freeHead, mem⟩

/-- The whole pages of the range read as zero afterwards. -/
def reclaimPages (page : Nat) (mem : Memory) (addr len : Nat) : Memory := fun x =>
  if 0 < page ∧ (addr + page - 1) / page * page ≤ x ∧ x < (addr + len) / page * page then 0
  else mem x

/-- What `free` does when the live counter of a chunk gets to zero. `none` is a loop that does not
end. -/
def GenSlab.reclaim (page : Nat) (sl : GenSlab) (h : SlabHeap) (c : ChunkSpan) :
    Option (GenSlab × SlabHeap) := do
  let totalSlots := (c.end - c.start) / c.slotBytes
  let count ← sl.countChunkSlots h.mem c.start c.end
  if count = totalSlots then
    let list ← sl.unlinkChunkSlots h.mem c.start c.end
    some ({ sl with freeHead := list.head },
      { h with mem := reclaimPages page list.mem c.start (c.end - c.start) })
  else some (sl, h)

def GenSlab.free (page : Nat) (sl : GenSlab) (h : SlabHeap) (th : SlabThread) (body : Nat) :
    Option (Bool × GenSlab × SlabHeap) :=
  let generation := h.mem (body - 8)
  if generation % 2 = 0 then some (false, sl, h)
  else
    let mem := Function.update (Function.update h.mem (body - 8) ((generation + 1) % 2 ^ 64)) body
      sl.freeHead
    let sl' := { sl with freeHead := body - 16 }
    let (found, index) := findChunkForAddr h.index th body
    match found with
    | none => some (true, sl', { h with mem := mem, index := index })
    | some c =>
      let prev := h.liveCounts c.liveCount
      let h' := ⟨mem, Function.update h.liveCounts c.liveCount (prev - 1), index⟩
      if prev = 1 ∧ ¬ (c.start ≤ sl.bump ∧ sl.bump < c.end) then
        (sl'.reclaim page h' c).map (true, ·)
      else some (true, sl', h')

/-- `chunk_for_valid_slot`. -/
def chunkForValidSlot (h : SlabHeap) (th : SlabThread) (val : Int) : Option ChunkSpan :=
  if val ≤ 0 ∨ val % 8 ≠ 0 then none
  else
    (findChunkForAddr h.index th val.toNat).1.filter fun c =>
      (val.toNat - c.start) % c.slotBytes = 16

def ptrIsSlabBody (h : SlabHeap) (th : SlabThread) (val : Int) : Bool :=
  match chunkForValidSlot h th val with
  | some _ => h.mem (val.toNat - 8) % 2 = 1
  | none => false

/-- Slabs that share the memory and the chunk table, with the bodies each has handed out so far
and those of them that have not been freed since. -/
structure SlabWorld (ι : Type) where
  slabs : ι → GenSlab
  heap : SlabHeap
  issued : ι → List Nat
  live : ι → List Nat

inductive SlabOp (ι : Type) where
  | alloc (i : ι) (th : SlabThread) (chunk counter : Nat)
  | free (i : ι) (th : SlabThread) (body : Nat)
  /-- A write of the owner of a body: to its words or to the first word of its slot. -/
  | store (i : ι) (body addr v : Nat)

/-- What the allocator promises of a chunk and of a counter. -/
def SlabHeap.Fresh (h : SlabHeap) (bytes chunk counter : Nat) : Prop :=
  0 < chunk ∧ chunk % 8 = 0 ∧ chunk + bytes < 2 ^ 63 ∧ 0 < counter ∧
    ∀ c ∈ h.index.spans, (c.end ≤ chunk ∨ chunk + bytes ≤ c.start) ∧ c.liveCount ≠ counter

instance (h : SlabHeap) (bytes chunk counter : Nat) : Decidable (h.Fresh bytes chunk counter) :=
  inferInstanceAs (Decidable (_ ∧ _))

variable {ι : Type}

def SlabWorld.empty (bodyBytes : ι → Nat) (isGlobal : ι → Bool) (mem : Memory) : SlabWorld ι where
  slabs i := .new (bodyBytes i) (isGlobal i)
  heap := ⟨mem, fun _ => 0, .empty⟩
  issued _ := []
  live _ := []

/-- `addr` is a word of the slot of `body` that its owner may write. -/
def GenSlab.Writable (sl : GenSlab) (body addr : Nat) : Prop :=
  addr = body - 16 ∨ (body ≤ addr ∧ addr + 8 ≤ body - 16 + sl.slotBytes)

instance (sl : GenSlab) (body addr : Nat) : Decidable (sl.Writable body addr) :=
  inferInstanceAs (Decidable (_ ∨ _))

variable [DecidableEq ι]

def SlabWorld.afterAlloc (w : SlabWorld ι) (i : ι) (r : (Nat × Bool) × GenSlab × SlabHeap) :
    SlabWorld ι where
  slabs := Function.update w.slabs i r.2.1
  heap := r.2.2
  issued := Function.update w.issued i (r.1.1 :: w.issued i)
  live := Function.update w.live i (r.1.1 :: w.live i)

def SlabWorld.afterFree (w : SlabWorld ι) (i : ι) (body : Nat) (r : Bool × GenSlab × SlabHeap) :
    SlabWorld ι where
  slabs := Function.update w.slabs i r.2.1
  heap := r.2.2
  issued := w.issued
  live := if r.1 then Function.update w.live i ((w.live i).erase body) else w.live

def slabStep (page : Nat) (w : SlabWorld ι) : SlabOp ι → Option (SlabWorld ι)
  | .alloc i th chunk counter =>
    if (w.slabs i).Grows ∧ ¬ w.heap.Fresh (w.slabs i).chunkBytes chunk counter then none
    else some (w.afterAlloc i ((w.slabs i).alloc w.heap th chunk counter))
  | .free i th body =>
    if body ∈ w.issued i then ((w.slabs i).free page w.heap th body).map (w.afterFree i body)
    else none
  | .store i body addr v =>
    if body ∈ w.live i ∧ (w.slabs i).Writable body addr then
      some { w with heap := { w.heap with mem := Function.update w.heap.mem addr v } }
    else none

end Olive
