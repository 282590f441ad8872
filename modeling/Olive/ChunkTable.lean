import Mathlib.Algebra.Group.Nat.Defs
import Mathlib.Logic.Function.Basic
import Olive.Interleaving

/-! The table of slab chunks and the threads' caches of the last chunks they found in it. -/

namespace Olive

abbrev SlabThread := Nat

/-- `live_count` is the address of the chunk's counter. -/
structure ChunkSpan where
  start : Nat
  «end» : Nat
  slotBytes : Nat
  liveCount : Nat
  isGlobal : Bool
  deriving DecidableEq

def ChunkSpan.Covers (c : ChunkSpan) (addr : Nat) : Prop :=
  c.start ≤ addr ∧ addr < c.end

instance (c : ChunkSpan) (addr : Nat) : Decidable (c.Covers addr) :=
  inferInstanceAs (Decidable (_ ∧ _))

/-- `LAST_CHUNKS` of one thread. -/
structure LastChunks where
  ways : Bool → Option ChunkSpan
  nextSlot : Bool
  epoch : Nat

/-- `CHUNK_TABLE`, `CHUNK_EPOCH`, `SPAN_MIN`, `SPAN_MAX` and the caches. The epochs count the
changes of the table; the `u64` the source compares is what is left of them modulo `2 ^ 64`. -/
structure ChunkIndex where
  table : Option (List ChunkSpan)
  epoch : Nat
  spanMin : Nat
  spanMax : Nat
  lastChunks : SlabThread → LastChunks

def ChunkIndex.empty : ChunkIndex :=
  ⟨none, 0, 2 ^ 64 - 1, 0, fun _ => ⟨fun _ => none, false, 0⟩⟩

def ChunkIndex.spans (s : ChunkIndex) : List ChunkSpan := s.table.getD []

/-- `slice::partition_point`, for a slice whose elements with `p` all come first. -/
def partitionPoint (p : ChunkSpan → Bool) (chunks : List ChunkSpan) : Nat :=
  (chunks.takeWhile p).length

def registerChunk (s : ChunkIndex) (c : ChunkSpan) : ChunkIndex :=
  let next := s.table.getD []
  let i := partitionPoint (·.start < c.start) next
  { s with
    table := some (next.insertIdx i c)
    epoch := s.epoch + 1
    spanMin := min s.spanMin c.start
    spanMax := max s.spanMax c.end }

def unregisterChunk (s : ChunkIndex) (start : Nat) : ChunkIndex :=
  match s.table with
  | none => s
  | some cur =>
    { s with table := some (cur.eraseP (·.start = start)), epoch := s.epoch + 1 }

def epochEq (a b : Nat) : Bool := a % 2 ^ 64 = b % 2 ^ 64

/-- The way of the cache that answers for `addr`. -/
def LastChunks.find (cache : LastChunks) (addr : Nat) : Option ChunkSpan :=
  ([cache.ways false, cache.ways true].filterMap id).find? (·.Covers addr)

/-- The binary search of the table. -/
def searchTable (chunks : List ChunkSpan) (addr : Nat) : Option ChunkSpan :=
  let i := partitionPoint (·.start ≤ addr) chunks
  if i = 0 then none else chunks[i - 1]?.filter (·.Covers addr)

def ChunkIndex.setCache (s : ChunkIndex) (th : SlabThread) (cache : LastChunks) : ChunkIndex :=
  { s with lastChunks := Function.update s.lastChunks th cache }

@[simp] theorem setCache_spans (s : ChunkIndex) (th : SlabThread) (cache : LastChunks) :
    (s.setCache th cache).spans = s.spans := rfl

@[simp] theorem setCache_epoch (s : ChunkIndex) (th : SlabThread) (cache : LastChunks) :
    (s.setCache th cache).epoch = s.epoch := rfl

@[simp] theorem setCache_self (s : ChunkIndex) (th : SlabThread) (cache : LastChunks) :
    (s.setCache th cache).lastChunks th = cache := Function.update_self ..

@[simp] theorem setCache_of_ne (s : ChunkIndex) {th th' : SlabThread} (cache : LastChunks)
    (hne : th' ≠ th) : (s.setCache th cache).lastChunks th' = s.lastChunks th' :=
  Function.update_of_ne hne ..

/-- What is left of the cache before the table is searched. -/
def clearStale (s : ChunkIndex) (th : SlabThread) : ChunkIndex :=
  let cached := s.lastChunks th
  if epochEq cached.epoch s.epoch then s
  else if (cached.ways false).isSome || (cached.ways true).isSome then
    s.setCache th ⟨fun _ => none, false, s.epoch⟩
  else s

/-- The new entry goes into the copy of the cache that was read at the start of the lookup. -/
def refill (s : ChunkIndex) (th : SlabThread) (cached : LastChunks) (c : ChunkSpan) : ChunkIndex :=
  s.setCache th
    ⟨Function.update cached.ways cached.nextSlot (some c), !cached.nextSlot, s.epoch⟩

def findChunkForAddr (s : ChunkIndex) (th : SlabThread) (addr : Nat) :
    Option ChunkSpan × ChunkIndex :=
  if addr < s.spanMin ∨ s.spanMax ≤ addr then (none, s)
  else
    let cached := s.lastChunks th
    match if epochEq cached.epoch s.epoch then cached.find addr else none with
    | some c => (some c, s)
    | none =>
      let s' := clearStale s th
      match s.table with
      | none => (none, s')
      | some chunks =>
        match searchTable chunks addr with
        | some c => (some c, refill s' th cached c)
        | none => (none, s')

inductive ChunkOp where
  | register (c : ChunkSpan)
  | unregister (start : Nat)
  | find (th : SlabThread) (addr : Nat)

/-- Chunks are memory the allocator has given out, so a new one overlaps none of the registered. -/
def ChunkIndex.Disjoint (s : ChunkIndex) (c : ChunkSpan) : Prop :=
  c.start < c.end ∧ ∀ d ∈ s.spans, d.end ≤ c.start ∨ c.end ≤ d.start

instance (s : ChunkIndex) (c : ChunkSpan) : Decidable (s.Disjoint c) :=
  inferInstanceAs (Decidable (_ ∧ _))

/-- One call, under the lock of the writers or of one reader. -/
def chunkStep (s : ChunkIndex) : ChunkOp → Option ChunkIndex
  | .register c => if s.Disjoint c then some (registerChunk s c) else none
  | .unregister start => some (unregisterChunk s start)
  | .find th addr => some (findChunkForAddr s th addr).2

/-- The lookup of `addr` returns the registered chunk that covers it. -/
def LookupExact (s : ChunkIndex) (th : SlabThread) (addr : Nat) : Prop :=
  ∀ c, (findChunkForAddr s th addr).1 = some c ↔ c ∈ s.spans ∧ c.Covers addr

/-- A cache that carries the epoch of the table though the table has changed since, which takes a
wrap of the counter, holds registered chunks only; and so does the way that a lookup under a new
epoch leaves as it was when it fills the other. -/
def CacheSound (s : ChunkIndex) : ChunkOp → Prop
  | .find th addr =>
    let cached := s.lastChunks th
    if epochEq cached.epoch s.epoch then
      cached.epoch ≠ s.epoch → ∀ i c, cached.ways i = some c → c ∈ s.spans
    else
      (∃ c ∈ s.spans, c.Covers addr) → ∀ c, cached.ways (!cached.nextSlot) = some c → c ∈ s.spans
  | _ => True

end Olive
