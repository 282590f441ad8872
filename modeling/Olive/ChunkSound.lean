import Olive.ChunkLookup

namespace Olive

variable {s : ChunkIndex} {c d : ChunkSpan} {th : SlabThread} {addr addr' : Nat}

/-- A lookup under a new epoch that leaves a dead chunk in the other way stamps it with the new
epoch, and the next lookup of an address of that chunk returns it. -/
theorem dead_chunk_found (h : s.Valid)
    (hep : epochEq (s.lastChunks th).epoch s.epoch = false)
    (hc : c ∈ s.spans) (hcov : c.Covers addr)
    (hway : (s.lastChunks th).ways (!(s.lastChunks th).nextSlot) = some d)
    (hd : d.Covers addr') (hcd : ¬ c.Covers addr') (hmin : s.spanMin ≤ addr')
    (hmax : addr' < s.spanMax) :
    (findChunkForAddr (findChunkForAddr s th addr).2 th addr').1 = some d := by
  have hfirst : findChunkForAddr s th addr =
      (some c, refill (clearStale s th) th (s.lastChunks th) c) := by
    rcases findChunkForAddr_cases h th addr with
      ⟨e, i, he, _⟩ | ⟨e, he, hecov, heq⟩ | ⟨hnone, _⟩
    · simp [hep] at he
    · rwa [h.sorted.unique hc he hcov hecov]
    · exact absurd hcov (hnone c hc)
  rw [hfirst]
  have hrange : (clearStale s th).spanMin = s.spanMin ∧ (clearStale s th).spanMax = s.spanMax := by
    rcases clearStale_cases s th with hs | hs <;> rw [hs] <;> exact ⟨rfl, rfl⟩
  -- the refilled cache has `c` in one way and still `d` in the other
  have hfind : LastChunks.find
      ⟨Function.update (s.lastChunks th).ways (s.lastChunks th).nextSlot (some c),
        !(s.lastChunks th).nextSlot, (clearStale s th).epoch⟩ addr' = some d := by
    cases hn : (s.lastChunks th).nextSlot <;> rw [hn] at hway <;>
      simp_all [LastChunks.find, Function.update]
  have hin : ¬ (addr' < s.spanMin ∨ s.spanMax ≤ addr') := by omega
  have hout : ¬ (addr' < (refill (clearStale s th) th (s.lastChunks th) c).spanMin ∨
      (refill (clearStale s th) th (s.lastChunks th) c).spanMax ≤ addr') := by
    simpa only [refill, ChunkIndex.setCache, hrange] using hin
  simp only [findChunkForAddr, if_neg hout]
  simp only [refill, setCache_self, setCache_epoch, epochEq, decide_true, if_true, hfind]

def chunkA : ChunkSpan := ⟨4096, 8192, 32, 1, false⟩

def chunkB : ChunkSpan := ⟨12288, 16384, 32, 2, false⟩

/-- A thread looks up the first of two chunks, another drops it, and the thread's next lookup, of the second,
keeps the first in its cache. -/
def staleRun : List ChunkOp :=
  [.register chunkA, .find 0 4112, .register chunkB, .unregister 4096, .find 0 12304]

end Olive
