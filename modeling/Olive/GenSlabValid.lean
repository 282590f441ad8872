import Mathlib.Data.List.Count
import Olive.ChunkLookup
import Olive.Counting
import Olive.GenSlab

/-! What holds of the slots of a slab between two calls. -/

namespace Olive

open Linked (Memory)

variable {s : ChunkIndex} {c d : ChunkSpan} {a b : Nat} {th : SlabThread} {mem mem' : Memory}

def ChunkSpan.slots (c : ChunkSpan) : Nat := (c.end - c.start) / c.slotBytes

/-- `a` is the first word of a slot of `c`. -/
def ChunkSpan.Slot (c : ChunkSpan) (a : Nat) : Prop :=
  ∃ k < c.slots, a = c.start + k * c.slotBytes

structure ChunkSpan.Shaped (c : ChunkSpan) : Prop where
  pos : 0 < c.start
  aligned : c.start % 8 = 0
  size : 24 ≤ c.slotBytes
  slotAligned : c.slotBytes % 8 = 0
  ends : c.end = c.start + c.slots * c.slotBytes
  bound : c.end < 2 ^ 63
  counted : 0 < c.liveCount

/-- A table from which nothing has been dropped. -/
structure ChunkIndex.Grown (s : ChunkIndex) : Prop where
  valid : s.Valid
  cached : ∀ th i c, (s.lastChunks th).ways i = some c → c ∈ s.spans
  shaped : ∀ c ∈ s.spans, c.Shaped
  counters : ∀ c ∈ s.spans, ∀ d ∈ s.spans, c.liveCount = d.liveCount → c = d

theorem grown_empty : ChunkIndex.empty.Grown :=
  ⟨valid_empty, by simp [ChunkIndex.empty], by simp [ChunkIndex.empty, ChunkIndex.spans],
    by simp [ChunkIndex.empty, ChunkIndex.spans]⟩

namespace ChunkIndex.Grown

theorem cacheSound (h : s.Grown) (th : SlabThread) (addr : Nat) :
    CacheSound s (.find th addr) := by
  simp only [CacheSound]
  split
  next => exact fun _ => h.cached th
  next => exact fun _ => h.cached th _

theorem find_iff (h : s.Grown) (th : SlabThread) (addr : Nat) :
    (findChunkForAddr s th addr).1 = some c ↔ c ∈ s.spans ∧ c.Covers addr :=
  lookupExact h.valid (h.cacheSound th addr) c

theorem find_spans (h : s.Grown) (th : SlabThread) (addr : Nat) :
    (findChunkForAddr s th addr).2.spans = s.spans := by
  rcases findChunkForAddr_cases h.valid th addr with
    ⟨c, i, _, _, _, heq⟩ | ⟨c, _, _, heq⟩ | ⟨_, heq | heq⟩ <;> rw [heq]
  · exact clearStale_spans
  · exact clearStale_spans

theorem find (h : s.Grown) (th : SlabThread) (addr : Nat) :
    (findChunkForAddr s th addr).2.Grown := by
  have hspans := h.find_spans th addr
  refine ⟨valid_step h.valid (h.cacheSound th addr) (a := .find th addr) rfl, ?_, ?_, ?_⟩
  · rw [hspans]
    have hclear : ∀ th' i c, ((clearStale s th).lastChunks th').ways i = some c → c ∈ s.spans := by
      intro th' i c hway
      rcases clearStale_cases s th with hs | hs <;> rw [hs] at hway
      · exact h.cached th' i c hway
      · rcases eq_or_ne th' th with rfl | hne
        · simp at hway
        · rw [setCache_of_ne _ _ hne] at hway
          exact h.cached th' i c hway
    rcases findChunkForAddr_cases h.valid th addr with
      ⟨c, i, _, _, _, heq⟩ | ⟨c, hc, _, heq⟩ | ⟨_, heq | heq⟩ <;> rw [heq]
    · exact h.cached
    · intro th' i d hway
      rcases eq_or_ne th' th with rfl | hne
      · rw [refill, setCache_self] at hway
        dsimp only at hway
        by_cases hi : i = (s.lastChunks th').nextSlot
        · rw [hi, Function.update_self] at hway
          exact Option.some.inj hway ▸ hc
        · rw [Function.update_of_ne hi] at hway
          exact h.cached th' i d hway
      · rw [refill, setCache_of_ne _ _ hne] at hway
        exact hclear th' i d hway
    · exact h.cached
    · exact hclear
  · rw [hspans]
    exact h.shaped
  · rw [hspans]
    exact h.counters

theorem register (h : s.Grown) (hc : s.Disjoint c) (hshaped : c.Shaped)
    (hcounter : ∀ d ∈ s.spans, d.liveCount ≠ c.liveCount) : (registerChunk s c).Grown := by
  refine ⟨valid_register h.valid hc, ?_, ?_, ?_⟩
  · intro th i d hway
    exact mem_spans_register.mpr (.inr (h.cached th i d hway))
  · intro d hd
    rcases mem_spans_register.mp hd with rfl | hd
    · exact hshaped
    · exact h.shaped d hd
  · intro d hd e he heq
    rcases mem_spans_register.mp hd with hdc | hd' <;>
      rcases mem_spans_register.mp he with hec | he'
    · exact hdc.trans hec.symm
    · exact absurd (hdc ▸ heq.symm) (hcounter e he')
    · exact absurd (hec ▸ heq) (hcounter d hd')
    · exact h.counters d hd' e he' heq

end ChunkIndex.Grown

theorem ChunkSpan.Slot.le (h : c.Slot a) : c.start ≤ a := by
  obtain ⟨k, _, rfl⟩ := h
  exact Nat.le_add_right ..

theorem ChunkSpan.Slot.end_le (h : c.Slot a) (hc : c.Shaped) : a + c.slotBytes ≤ c.end := by
  obtain ⟨k, hk, rfl⟩ := h
  have hle := Nat.mul_le_mul_right c.slotBytes (Nat.succ_le_of_lt hk)
  rw [Nat.succ_mul] at hle
  have := hc.ends
  omega

theorem ChunkSpan.Slot.covers (h : c.Slot a) (hc : c.Shaped) {x : Nat} (hx : x < 24) :
    c.Covers (a + x) := by
  have := h.le
  have := h.end_le hc
  have := hc.size
  exact ⟨by omega, by omega⟩

theorem ChunkSpan.Slot.apart (ha : c.Slot a) (hb : c.Slot b) :
    a = b ∨ a + c.slotBytes ≤ b ∨ b + c.slotBytes ≤ a := by
  obtain ⟨k, _, rfl⟩ := ha
  obtain ⟨l, _, rfl⟩ := hb
  rcases Nat.lt_trichotomy k l with hlt | rfl | hlt
  · have hle := Nat.mul_le_mul_right c.slotBytes (Nat.succ_le_of_lt hlt)
    rw [Nat.succ_mul] at hle
    omega
  · exact .inl rfl
  · have hle := Nat.mul_le_mul_right c.slotBytes (Nat.succ_le_of_lt hlt)
    rw [Nat.succ_mul] at hle
    omega

/-- No chunk overlaps another. -/
theorem ChunkIndex.Grown.chunks_apart (h : s.Grown) (hc : c ∈ s.spans) (hd : d ∈ s.spans)
    (hne : c ≠ d) : c.end ≤ d.start ∨ d.end ≤ c.start := by
  by_contra hover
  have hcs := h.valid.sorted.2 c hc
  have hds := h.valid.sorted.2 d hd
  have hcov : c.Covers (max c.start d.start) := ⟨by omega, by omega⟩
  exact hne (h.valid.sorted.unique hc hd hcov ⟨by omega, by omega⟩)

/-- Two slots do not overlap. -/
theorem ChunkIndex.Grown.slots_apart (h : s.Grown) (hc : c ∈ s.spans) (hd : d ∈ s.spans)
    (ha : c.Slot a) (hb : d.Slot b) :
    a = b ∨ a + c.slotBytes ≤ b ∨ b + d.slotBytes ≤ a := by
  rcases eq_or_ne c d with rfl | hne
  · exact ha.apart hb
  · have hal := ha.le
    have hbl := hb.le
    have hae := ha.end_le (h.shaped c hc)
    have hbe := hb.end_le (h.shaped d hd)
    rcases h.chunks_apart hc hd hne with hlt | hlt <;> omega

/-- The first three words of two slots are different words. -/
theorem ChunkIndex.Grown.word_ne (h : s.Grown) (hc : c ∈ s.spans) (hd : d ∈ s.spans)
    (ha : c.Slot a) (hb : d.Slot b) (hne : a ≠ b) {x y : Nat} (hx : x < 24) (hy : y < 24) :
    b + y ≠ a + x := by
  have hcs := (h.shaped c hc).size
  have hds := (h.shaped d hd).size
  rcases h.slots_apart hc hd ha hb with heq | hlt | hlt
  · exact absurd heq hne
  · omega
  · omega

theorem ChunkIndex.Grown.slot_unique (h : s.Grown) (hc : c ∈ s.spans) (hd : d ∈ s.spans)
    (ha : c.Slot a) (hb : d.Slot a) : c = d :=
  h.valid.sorted.unique hc hd (ha.covers (h.shaped c hc) (x := 0) (by omega))
    (hb.covers (h.shaped d hd) (x := 0) (by omega))

/-- How many slots of `c` have an odd generation. -/
def liveSlots (mem : Memory) (c : ChunkSpan) : Nat :=
  (List.range c.slots).countP fun k => mem (c.start + k * c.slotBytes + 8) % 2 = 1

theorem liveSlots_congr (h : ∀ a, c.Slot a → mem' (a + 8) % 2 = mem (a + 8) % 2) :
    liveSlots mem' c = liveSlots mem c := by
  refine List.countP_congr fun k hk => ?_
  rw [h _ ⟨k, List.mem_range.mp hk, rfl⟩]

theorem liveSlots_flip (hc : c.Shaped) (ha : c.Slot a)
    (hother : ∀ b, c.Slot b → b ≠ a → mem' (b + 8) = mem (b + 8)) (hdead : mem (a + 8) % 2 = 0)
    (hlive : mem' (a + 8) % 2 = 1) : liveSlots mem' c = liveSlots mem c + 1 := by
  obtain ⟨k, hk, rfl⟩ := ha
  have hsize := hc.size
  refine Counting.countP_flip hk (fun i hi hne => ?_) (by simpa using hdead) (by simpa using hlive)
  rw [hother _ ⟨i, hi, rfl⟩ fun heq => ?_]
  have hmul : i * c.slotBytes = k * c.slotBytes := by omega
  exact hne (Nat.eq_of_mul_eq_mul_right (by omega) hmul)

/-- The slab has allocated the chunk. -/
def GenSlab.Owns (sl : GenSlab) (c : ChunkSpan) : Prop :=
  (c.start, sl.chunkBytes) ∈ sl.chunks ∧ c.slotBytes = sl.slotBytes ∧
    c.end = c.start + sl.chunkBytes ∧ c.isGlobal = sl.isGlobal

/-- A slot that is not among those still to be given out from the front of the active chunk. -/
def GenSlab.Bumped (sl : GenSlab) (a : Nat) : Prop := ¬ (sl.bump ≤ a ∧ a < sl.bumpEnd)

/-- What a slot is: not given out yet, live, on the free list, or in a reclaimed chunk. -/
structure SlotValid (mem : Memory) (sl : GenSlab) (fl : List Nat) (retired : List ChunkSpan)
    (live : List Nat) (c : ChunkSpan) (a : Nat) : Prop where
  unbumped : ¬ sl.Bumped a → mem (a + 8) = 0
  dead : sl.Bumped a → mem (a + 8) % 2 = 0 → a ∈ fl ∨ c ∈ retired
  gone : c ∈ retired → sl.Bumped a ∧ mem (a + 8) % 2 = 0
  odd : mem (a + 8) % 2 = 1 ↔ a + 16 ∈ live

structure SlabValid (h : SlabHeap) (sl : GenSlab) (fl : List Nat) (retired : List ChunkSpan)
    (issued live : List Nat) : Prop where
  size : 24 ≤ sl.slotBytes
  aligned : sl.slotBytes % 8 = 0
  owned : ∀ p ∈ sl.chunks, ∃ c ∈ h.index.spans, sl.Owns c ∧ c.start = p.1
  bumping : (sl.bump = 0 ∧ sl.bumpEnd = 0) ∨ ∃ c ∈ h.index.spans, sl.Owns c ∧
    sl.bumpEnd = c.end ∧ sl.activeLiveCount = c.liveCount ∧
      ∃ k ≤ c.slots, sl.bump = c.start + k * c.slotBytes
  links : Linked.Links h.mem 16 sl.freeHead fl
  nodup : fl.Nodup
  freed : ∀ a ∈ fl, sl.Bumped a ∧ h.mem (a + 8) % 2 = 0 ∧
    ∃ c ∈ h.index.spans, sl.Owns c ∧ c.Slot a ∧ c ∉ retired
  slot : ∀ c ∈ h.index.spans, sl.Owns c → ∀ a, c.Slot a →
    SlotValid h.mem sl fl retired live c a
  reclaimed : ∀ c ∈ retired, c ∈ h.index.spans ∧ sl.Owns c
  counts : ∀ c ∈ h.index.spans, sl.Owns c → h.liveCounts c.liveCount = liveSlots h.mem c
  handed : ∀ b ∈ issued, ∃ c ∈ h.index.spans, sl.Owns c ∧ ∃ a, c.Slot a ∧ sl.Bumped a ∧ b = a + 16
  live_issued : ∀ b ∈ live, b ∈ issued
  live_nodup : live.Nodup

variable {h h' : SlabHeap} {sl sl' : GenSlab} {fl fl' : List Nat} {retired : List ChunkSpan}
  {issued issued' live live' : List Nat}

theorem SlotValid.congr (hs : SlotValid mem sl fl retired live c a)
    (hgen : mem' (a + 8) = mem (a + 8)) (hbumped : sl'.Bumped a ↔ sl.Bumped a) :
    SlotValid mem' sl' fl retired live c a := by
  constructor
  · rw [hgen, hbumped]
    exact hs.unbumped
  · rw [hgen, hbumped]
    exact hs.dead
  · rw [hgen, hbumped]
    exact hs.gone
  · rw [hgen]
    exact hs.odd

/-- A slab does not notice what happens outside its chunks. -/
theorem SlabValid.frame (hv : SlabValid h sl fl retired issued live) (hg : h.index.Grown)
    (hspans : ∀ c, sl.Owns c → (c ∈ h'.index.spans ↔ c ∈ h.index.spans))
    (hmem : ∀ c ∈ h.index.spans, sl.Owns c → ∀ x, c.Covers x → h'.mem x = h.mem x)
    (hcounts : ∀ c ∈ h.index.spans, sl.Owns c →
      h'.liveCounts c.liveCount = h.liveCounts c.liveCount) :
    SlabValid h' sl fl retired issued live := by
  have hgen : ∀ c ∈ h.index.spans, sl.Owns c → ∀ a, c.Slot a → h'.mem (a + 8) = h.mem (a + 8) :=
    fun c hc ho a ha => hmem c hc ho _ (ha.covers (hg.shaped c hc) (by omega))
  exact {
    size := hv.size
    aligned := hv.aligned
    owned := fun p hp => by
      obtain ⟨c, hc, ho, heq⟩ := hv.owned p hp
      exact ⟨c, (hspans c ho).mpr hc, ho, heq⟩
    bumping := by
      rcases hv.bumping with hz | ⟨c, hc, ho, hrest⟩
      · exact .inl hz
      · exact .inr ⟨c, (hspans c ho).mpr hc, ho, hrest⟩
    links := hv.links.congr fun a ha => by
      obtain ⟨_, _, c, hc, ho, hslot, _⟩ := hv.freed a ha
      exact hmem c hc ho _ (hslot.covers (hg.shaped c hc) (by omega))
    nodup := hv.nodup
    freed := fun a ha => by
      obtain ⟨hb, hdead, c, hc, ho, hslot, hr⟩ := hv.freed a ha
      rw [hgen c hc ho a hslot]
      exact ⟨hb, hdead, c, (hspans c ho).mpr hc, ho, hslot, hr⟩
    slot := fun c hc ho a ha => by
      have hc' := (hspans c ho).mp hc
      exact (hv.slot c hc' ho a ha).congr (hgen c hc' ho a ha) Iff.rfl
    reclaimed := fun c hr => by
      obtain ⟨hc, ho⟩ := hv.reclaimed c hr
      exact ⟨(hspans c ho).mpr hc, ho⟩
    counts := fun c hc ho => by
      have hc' := (hspans c ho).mp hc
      rw [hcounts c hc' ho, hv.counts c hc' ho]
      exact (liveSlots_congr fun a ha => by rw [hgen c hc' ho a ha]).symm
    handed := fun b hb => by
      obtain ⟨c, hc, ho, hrest⟩ := hv.handed b hb
      exact ⟨c, (hspans c ho).mpr hc, ho, hrest⟩
    live_issued := hv.live_issued
    live_nodup := hv.live_nodup }

/-- A call that changes the slot `a` of `c` and no other. -/
structure SlotChange (c : ChunkSpan) (a : Nat) (h : SlabHeap) (sl : GenSlab) (fl live : List Nat)
    (h' : SlabHeap) (sl' : GenSlab) (fl' live' : List Nat) : Prop where
  spans : h'.index.spans = h.index.spans
  owns : ∀ d, sl'.Owns d ↔ sl.Owns d
  gen : ∀ d ∈ h.index.spans, ∀ b, d.Slot b → b ≠ a → h'.mem (b + 8) = h.mem (b + 8)
  bumped : ∀ d ∈ h.index.spans, ∀ b, d.Slot b → b ≠ a → (sl'.Bumped b ↔ sl.Bumped b)
  freed : ∀ b, b ≠ a → (b ∈ fl' ↔ b ∈ fl)
  live : ∀ b, b ≠ a → (b + 16 ∈ live' ↔ b + 16 ∈ live)
  counts : ∀ d ∈ h.index.spans, d ≠ c → h'.liveCounts d.liveCount = h.liveCounts d.liveCount

theorem SlotChange.slot (hs : SlotChange c a h sl fl live h' sl' fl' live')
    (hg : h.index.Grown) (hv : SlabValid h sl fl retired issued live) (hc : c ∈ h.index.spans)
    (ha : c.Slot a) (hslot : SlotValid h'.mem sl' fl' retired live' c a) :
    ∀ d ∈ h'.index.spans, sl'.Owns d → ∀ b, d.Slot b →
      SlotValid h'.mem sl' fl' retired live' d b := by
  intro d hd ho b hb
  rw [hs.spans] at hd
  rcases eq_or_ne b a with rfl | hne
  · rwa [hg.slot_unique hd hc hb ha]
  · have hold := hv.slot d hd ((hs.owns d).mp ho) b hb
    constructor
    · rw [hs.gen d hd b hb hne, hs.bumped d hd b hb hne]
      exact hold.unbumped
    · rw [hs.gen d hd b hb hne, hs.bumped d hd b hb hne, hs.freed b hne]
      exact hold.dead
    · rw [hs.gen d hd b hb hne, hs.bumped d hd b hb hne]
      exact hold.gone
    · rw [hs.gen d hd b hb hne, hs.live b hne]
      exact hold.odd

theorem SlotChange.liveSlots (hs : SlotChange c a h sl fl live h' sl' fl' live')
    (hg : h.index.Grown) (hc : c ∈ h.index.spans) (ha : c.Slot a) :
    liveSlots h'.mem c + h.mem (a + 8) % 2 = liveSlots h.mem c + h'.mem (a + 8) % 2 := by
  have hother : ∀ b, c.Slot b → b ≠ a → h'.mem (b + 8) = h.mem (b + 8) := hs.gen c hc
  have hshaped := hg.shaped c hc
  rcases Nat.mod_two_eq_zero_or_one (h.mem (a + 8)) with hz | hz <;>
    rcases Nat.mod_two_eq_zero_or_one (h'.mem (a + 8)) with hz' | hz'
  · rw [hz, hz', liveSlots_congr fun b hb => ?_]
    rcases eq_or_ne b a with rfl | hne
    · rw [hz, hz']
    · rw [hother b hb hne]
  · rw [hz, hz', liveSlots_flip hshaped ha hother hz hz']
  · rw [hz, hz', liveSlots_flip hshaped ha (fun b hb hne => (hother b hb hne).symm) hz' hz]
  · rw [hz, hz', liveSlots_congr fun b hb => ?_]
    rcases eq_or_ne b a with rfl | hne
    · rw [hz, hz']
    · rw [hother b hb hne]

/-- A change of one slot keeps a slab valid when it leaves that slot, the lists and the counter of
its chunk in order. -/
theorem SlotChange.valid (hs : SlotChange c a h sl fl live h' sl' fl' live')
    (hg : h.index.Grown) (hv : SlabValid h sl fl retired issued live) (hc : c ∈ h.index.spans)
    (ho : sl.Owns c) (ha : c.Slot a) (hbytes : sl'.slotBytes = sl.slotBytes)
    (hchunks : sl'.chunks = sl.chunks)
    (hbumping : (sl'.bump = 0 ∧ sl'.bumpEnd = 0) ∨ ∃ c ∈ h.index.spans, sl.Owns c ∧
      sl'.bumpEnd = c.end ∧ sl'.activeLiveCount = c.liveCount ∧
        ∃ k ≤ c.slots, sl'.bump = c.start + k * c.slotBytes)
    (hlinks : Linked.Links h'.mem 16 sl'.freeHead fl') (hnodup : fl'.Nodup)
    (hfreed : a ∈ fl' → c ∉ retired ∧ h'.mem (a + 8) % 2 = 0) (hbumped : sl'.Bumped a)
    (hslot : SlotValid h'.mem sl' fl' retired live' c a)
    (hcount : h'.liveCounts c.liveCount + h.mem (a + 8) % 2 =
      h.liveCounts c.liveCount + h'.mem (a + 8) % 2)
    (hissued : ∀ b ∈ issued', b = a + 16 ∨ b ∈ issued) (hlive : ∀ b ∈ live', b ∈ issued')
    (hlive_nodup : live'.Nodup) : SlabValid h' sl' fl' retired issued' live' where
  size := hbytes ▸ hv.size
  aligned := hbytes ▸ hv.aligned
  owned p hp := by
    obtain ⟨d, hd, hod, heq⟩ := hv.owned p (hchunks ▸ hp)
    exact ⟨d, hs.spans.symm ▸ hd, (hs.owns d).mpr hod, heq⟩
  bumping := by
    rcases hbumping with hz | ⟨d, hd, hod, hrest⟩
    · exact .inl hz
    · exact .inr ⟨d, hs.spans.symm ▸ hd, (hs.owns d).mpr hod, hrest⟩
  links := hlinks
  nodup := hnodup
  freed b hb := by
    rcases eq_or_ne b a with rfl | hne
    · exact ⟨hbumped, (hfreed hb).2, c, hs.spans.symm ▸ hc, (hs.owns c).mpr ho, ha, (hfreed hb).1⟩
    · obtain ⟨hbb, hdead, d, hd, hod, hdb, hr⟩ := hv.freed b ((hs.freed b hne).mp hb)
      refine ⟨(hs.bumped d hd b hdb hne).mpr hbb, ?_, d, hs.spans.symm ▸ hd, (hs.owns d).mpr hod,
        hdb, hr⟩
      rwa [hs.gen d hd b hdb hne]
  slot := hs.slot hg hv hc ha hslot
  reclaimed d hr := by
    obtain ⟨hd, hod⟩ := hv.reclaimed d hr
    exact ⟨hs.spans.symm ▸ hd, (hs.owns d).mpr hod⟩
  counts d hd hod := by
    rw [hs.spans] at hd
    have hold := hv.counts d hd ((hs.owns d).mp hod)
    rcases eq_or_ne d c with rfl | hne
    · have := hs.liveSlots hg hd ha
      omega
    · rw [hs.counts d hd hne, hold]
      refine (liveSlots_congr fun b hb => ?_).symm
      rw [hs.gen d hd b hb fun heq => hne (hg.slot_unique hd hc (heq ▸ hb) ha)]
  handed b hb := by
    rw [hs.spans]
    rcases hissued b hb with rfl | hb
    · exact ⟨c, hc, (hs.owns c).mpr ho, a, ha, hbumped, rfl⟩
    · obtain ⟨d, hd, hod, e, he, hbe, rfl⟩ := hv.handed b hb
      rcases eq_or_ne e a with rfl | hne
      · exact ⟨d, hd, (hs.owns d).mpr hod, e, he, hbumped, rfl⟩
      · exact ⟨d, hd, (hs.owns d).mpr hod, e, he, (hs.bumped d hd e he hne).mpr hbe, rfl⟩
  live_issued := hlive
  live_nodup := hlive_nodup

end Olive
