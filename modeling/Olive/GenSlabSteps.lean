import Olive.GenSlabValid

/-! What `alloc`, `grow` and `free` of one slab do to its slots. -/

namespace Olive

open Linked (Memory)

variable {h h' : SlabHeap} {sl sl' : GenSlab} {fl : List Nat} {retired : List ChunkSpan}
  {issued live : List Nat} {c : ChunkSpan} {a : Nat} {th : SlabThread}

/-- What a call on the slab leaves alone: the table but for a new chunk of the slab, and the words
and counters of the chunks of others. -/
structure SlabEffect (h : SlabHeap) (sl : GenSlab) (h' : SlabHeap) (sl' : GenSlab) : Prop where
  grown : h'.index.Grown
  kept : ∀ c ∈ h.index.spans, c ∈ h'.index.spans
  new : ∀ c ∈ h'.index.spans, c ∈ h.index.spans ∨
    sl'.Owns c ∧ ∀ d ∈ h.index.spans, d.start ≠ c.start
  owns : ∀ c ∈ h.index.spans, sl'.Owns c ↔ sl.Owns c
  mem : ∀ c ∈ h.index.spans, ¬ sl.Owns c → ∀ x, c.Covers x → h'.mem x = h.mem x
  counts : ∀ c ∈ h.index.spans, ¬ sl.Owns c → h'.liveCounts c.liveCount = h.liveCounts c.liveCount

theorem SlabEffect.trans {h'' : SlabHeap} {sl'' : GenSlab} (h₁ : SlabEffect h sl h' sl')
    (h₂ : SlabEffect h' sl' h'' sl'') : SlabEffect h sl h'' sl'' where
  grown := h₂.grown
  kept c hc := h₂.kept c (h₁.kept c hc)
  new c hc := by
    rcases h₂.new c hc with hc' | ⟨ho, hnew⟩
    · rcases h₁.new c hc' with hc'' | ⟨ho, hnew⟩
      · exact .inl hc''
      · exact .inr ⟨(h₂.owns c hc').mpr ho, hnew⟩
    · exact .inr ⟨ho, fun d hd => hnew d (h₁.kept d hd)⟩
  owns c hc := (h₂.owns c (h₁.kept c hc)).trans (h₁.owns c hc)
  mem c hc ho x hx := by
    have ho' : ¬ sl'.Owns c := fun ho' => ho ((h₁.owns c hc).mp ho')
    exact (h₂.mem c (h₁.kept c hc) ho' x hx).trans (h₁.mem c hc ho x hx)
  counts c hc ho := by
    have ho' : ¬ sl'.Owns c := fun ho' => ho ((h₁.owns c hc).mp ho')
    exact (h₂.counts c (h₁.kept c hc) ho').trans (h₁.counts c hc ho)

/-- A call that stays within the chunks the slab has. -/
theorem SlabEffect.within (hg : h.index.Grown) (hg' : h'.index.Grown)
    (hspans : h'.index.spans = h.index.spans) (howns : ∀ d, sl'.Owns d ↔ sl.Owns d)
    (hmem : ∀ x, (∀ d ∈ h.index.spans, sl.Owns d → ¬ d.Covers x) → h'.mem x = h.mem x)
    (hcounts : ∀ n, (∀ d ∈ h.index.spans, sl.Owns d → n ≠ d.liveCount) →
      h'.liveCounts n = h.liveCounts n) : SlabEffect h sl h' sl' where
  grown := hg'
  kept _ hd := hspans ▸ hd
  new _ hd := .inl (hspans ▸ hd)
  owns d _ := howns d
  mem _ hd ho x hx := hmem x fun _ he hoe hex => ho (hg.valid.sorted.unique he hd hex hx ▸ hoe)
  counts d hd ho := hcounts _ fun e he hoe heq => ho (hg.counters d hd e he heq ▸ hoe)

theorem SlabValid.slots_eq (hv : SlabValid h sl fl retired issued live) (ho : sl.Owns c) :
    c.slots = sl.slots := by
  obtain ⟨_, hbytes, hend, _⟩ := ho
  have hsize := hv.size
  unfold ChunkSpan.slots
  rw [hend, hbytes, Nat.add_sub_cancel_left, GenSlab.chunkBytes, Nat.mul_div_cancel _ (by omega)]

/-- Every free list is short enough for the loops over it. -/
theorem SlabValid.length_lt_fuel (hv : SlabValid h sl fl retired issued live) :
    fl.length < sl.fuel := by
  have hsub : fl ⊆ sl.chunks.flatMap fun p =>
      (List.range sl.slots).map fun k => p.1 + k * sl.slotBytes := by
    intro a ha
    obtain ⟨_, _, c, hc, ho, ⟨k, hk, rfl⟩, _⟩ := hv.freed a ha
    rw [hv.slots_eq ho] at hk
    exact List.mem_flatMap.mpr ⟨_, ho.1, List.mem_map.mpr ⟨k, List.mem_range.mpr hk, by rw [ho.2.1]⟩⟩
  have hlen := (List.subperm_of_subset hv.nodup hsub).length_le
  have hsum : (sl.chunks.map fun _ => sl.slots).sum = sl.chunks.length * sl.slots := by simp
  rw [List.length_flatMap] at hlen
  simp only [List.length_map, List.length_range] at hlen
  rw [hsum] at hlen
  exact Nat.lt_succ_of_le hlen

/-- The chunk of a slot is the one the lookup of its body finds. -/
theorem SlabHeap.find_slot (hg : h.index.Grown) (hc : c ∈ h.index.spans) (ha : c.Slot a)
    (th : SlabThread) : (findChunkForAddr h.index th (a + 16)).1 = some c :=
  (hg.find_iff th _).mpr ⟨hc, ha.covers (hg.shaped c hc) (by omega)⟩

/-- The slab after `alloc` has taken the slot `a` of `c` from the free list. -/
theorem allocFreed_eq (hg : h.index.Grown) (hc : c ∈ h.index.spans) (ha : c.Slot a)
    (hhead : sl.freeHead = a) (th : SlabThread) : sl.allocFreed h th =
      ((a + 16, false), { sl with freeHead := h.mem (a + 16) },
        { mem := Function.update h.mem (a + 8) ((h.mem (a + 8) + 1) % 2 ^ 64)
          liveCounts := Function.update h.liveCounts c.liveCount (h.liveCounts c.liveCount + 1)
          index := (findChunkForAddr h.index th (a + 16)).2 }) := by
  have hfind := SlabHeap.find_slot hg hc ha th
  subst hhead
  simp only [GenSlab.allocFreed, hfind, SlabHeap.fetchAdd]

theorem succ_mod_odd {g : Nat} (hg : g % 2 = 0) : (g + 1) % 2 ^ 64 % 2 = 1 := by omega

theorem succ_mod_even {g : Nat} (hg : g % 2 = 1) : (g + 1) % 2 ^ 64 % 2 = 0 := by omega

theorem allocFreed_valid (hg : h.index.Grown) (hv : SlabValid h sl (a :: fl) retired issued live)
    (th : SlabThread) :
    SlabValid (sl.allocFreed h th).2.2 (sl.allocFreed h th).2.1 fl retired
      ((a + 16) :: issued) ((a + 16) :: live) ∧
      SlabEffect h sl (sl.allocFreed h th).2.2 (sl.allocFreed h th).2.1 := by
  obtain ⟨hhead, _, hlinks⟩ := hv.links
  obtain ⟨hbumped, hdead, c, hc, ho, ha, hretired⟩ := hv.freed a (by simp)
  obtain ⟨hnot, hnodup⟩ := List.nodup_cons.mp hv.nodup
  have hspans := hg.find_spans th (a + 16)
  rw [allocFreed_eq hg hc ha hhead th]
  have hword : ∀ d ∈ h.index.spans, ∀ b, d.Slot b → b ≠ a → ∀ y < 24,
      Function.update h.mem (a + 8) ((h.mem (a + 8) + 1) % 2 ^ 64) (b + y) = h.mem (b + y) :=
    fun d hd b hb hne y hy =>
      Function.update_of_ne (hg.word_ne hc hd ha hb hne.symm (by omega) hy) ..
  have hodd : Function.update h.mem (a + 8) ((h.mem (a + 8) + 1) % 2 ^ 64) (a + 8) % 2 = 1 := by
    rw [Function.update_self, succ_mod_odd hdead]
  refine ⟨SlotChange.valid (c := c) (a := a) ?_ hg hv hc ho ha rfl rfl hv.bumping ?_ hnodup
    (fun ha' => absurd ha' hnot) hbumped ?_ ?_ ?_ ?_ ?_,
    .within hg (hg.find th (a + 16)) hspans (fun _ => Iff.rfl) ?_ ?_⟩
  · exact {
      spans := hspans
      owns := fun _ => Iff.rfl
      gen := fun d hd b hb hne => hword d hd b hb hne 8 (by omega)
      bumped := fun _ _ _ _ _ => Iff.rfl
      freed := fun b hne => by simp [hne]
      live := fun b hne => by simp [hne]
      counts := fun d hd hne =>
        Function.update_of_ne (fun heq => hne (hg.counters d hd c hc heq)) .. }
  · refine hlinks.congr fun b hb => ?_
    obtain ⟨_, _, d, hd, _, hdb, _⟩ := hv.freed b (List.mem_cons_of_mem a hb)
    exact hword d hd b hdb (fun heq => hnot (heq ▸ hb)) 16 (by omega)
  · exact {
      unbumped := fun hub => absurd hbumped hub
      dead := fun _ heven => by
        dsimp only at heven
        omega
      gone := fun hr => absurd hr hretired
      odd := by simpa using hodd }
  · dsimp only
    rw [hodd, hdead, Function.update_self]
  · exact fun b hb => List.mem_cons.mp hb
  · intro b hb
    rcases List.mem_cons.mp hb with rfl | hb
    · simp
    · exact List.mem_cons_of_mem _ (hv.live_issued b hb)
  · refine List.nodup_cons.mpr ⟨fun hmem => ?_, hv.live_nodup⟩
    have := (hv.slot c hc ho a ha).odd.mpr hmem
    omega
  · intro x hx
    refine Function.update_of_ne (fun heq => ?_) ..
    exact hx c hc ho (heq ▸ ha.covers (hg.shaped c hc) (by omega))
  · exact fun n hn => Function.update_of_ne (hn c hc ho) ..

/-- The slot at the front of the active chunk. -/
theorem SlabValid.front (hv : SlabValid h sl fl retired issued live) (hg : h.index.Grown)
    (hbump : sl.bump ≠ 0) (hroom : sl.bump + sl.slotBytes ≤ sl.bumpEnd) :
    ∃ c ∈ h.index.spans, sl.Owns c ∧ sl.bumpEnd = c.end ∧ sl.activeLiveCount = c.liveCount ∧
      c.Slot sl.bump ∧ ∃ k ≤ c.slots, sl.bump + sl.slotBytes = c.start + k * c.slotBytes := by
  rcases hv.bumping with ⟨hz, _⟩ | ⟨c, hc, ho, hend, hcount, k, hk, heq⟩
  · exact absurd hz hbump
  · have hends := (hg.shaped c hc).ends
    have hbytes := ho.2.1
    have hlt : k < c.slots := by
      refine Nat.lt_of_mul_lt_mul_right (a := c.slotBytes) ?_
      have := hv.size
      omega
    refine ⟨c, hc, ho, hend, hcount, ⟨k, hlt, heq⟩, k + 1, hlt, ?_⟩
    rw [heq, ← hbytes, Nat.succ_mul, Nat.add_assoc]

theorem allocBump_valid (hg : h.index.Grown) (hv : SlabValid h sl fl retired issued live)
    (hbump : sl.bump ≠ 0) (hroom : sl.bump + sl.slotBytes ≤ sl.bumpEnd) :
    h.mem (sl.bump + 8) = 0 ∧ sl.bump ∉ fl ∧
    SlabValid (sl.allocBump h).2.2 (sl.allocBump h).2.1 fl retired
      ((sl.bump + 16) :: issued) ((sl.bump + 16) :: live) ∧
      SlabEffect h sl (sl.allocBump h).2.2 (sl.allocBump h).2.1 := by
  obtain ⟨c, hc, ho, hend, hcount, ha, hnext⟩ := hv.front hg hbump hroom
  have hsize := hv.size
  have hold := hv.slot c hc ho _ ha
  have hunbumped : ¬ sl.Bumped sl.bump := by
    unfold GenSlab.Bumped
    omega
  have hzero := hold.unbumped hunbumped
  have hnot : sl.bump ∉ fl := fun hmem => hunbumped (hv.freed _ hmem).1
  have hne : c.liveCount ≠ 0 := Nat.ne_of_gt (hg.shaped c hc).counted
  have heq : sl.allocBump h = ((sl.bump + 16, true), { sl with bump := sl.bump + sl.slotBytes },
      { h with
        mem := Function.update h.mem (sl.bump + 8) 1
        liveCounts :=
          Function.update h.liveCounts c.liveCount (h.liveCounts c.liveCount + 1) }) := by
    simp only [GenSlab.allocBump, hcount, if_neg hne, SlabHeap.fetchAdd]
  rw [heq]
  have hword : ∀ d ∈ h.index.spans, ∀ b, d.Slot b → b ≠ sl.bump → ∀ y < 24,
      Function.update h.mem (sl.bump + 8) 1 (b + y) = h.mem (b + y) :=
    fun d hd b hb hne y hy =>
      Function.update_of_ne (hg.word_ne hc hd ha hb hne.symm (by omega) hy) ..
  refine ⟨hzero, hnot, SlotChange.valid (c := c) (a := sl.bump) ?_ hg hv hc ho ha rfl rfl
    (.inr ⟨c, hc, ho, hend, hcount, hnext⟩) ?_ hv.nodup (fun hmem => absurd hmem hnot) ?_ ?_ ?_ ?_
    ?_ ?_, .within hg hg rfl (fun _ => Iff.rfl) ?_ ?_⟩
  · exact {
      spans := rfl
      owns := fun _ => Iff.rfl
      gen := fun d hd b hb hne => hword d hd b hb hne 8 (by omega)
      bumped := fun d hd b hb hne => by
        have hbytes := ho.2.1
        unfold GenSlab.Bumped
        dsimp only
        rcases hg.slots_apart hc hd ha hb with heq | hlt | hlt
        · exact absurd heq.symm hne
        · omega
        · omega
      freed := fun _ _ => Iff.rfl
      live := fun b hne => by simp [hne]
      counts := fun d hd hne =>
        Function.update_of_ne (fun heq => hne (hg.counters d hd c hc heq)) .. }
  · refine hv.links.congr fun b hb => ?_
    obtain ⟨_, _, d, hd, _, hdb, _⟩ := hv.freed b hb
    exact hword d hd b hdb (fun heq => hnot (heq ▸ hb)) 16 (by omega)
  · unfold GenSlab.Bumped
    dsimp only
    omega
  · exact {
      unbumped := fun hub => by
        unfold GenSlab.Bumped at hub
        dsimp only at hub
        omega
      dead := fun _ heven => by simp at heven
      gone := fun hr => absurd (hold.gone hr).1 hunbumped
      odd := by simp }
  · dsimp only
    rw [hzero, Function.update_self, Function.update_self]
  · exact fun b hb => List.mem_cons.mp hb
  · intro b hb
    rcases List.mem_cons.mp hb with rfl | hb
    · simp
    · exact List.mem_cons_of_mem _ (hv.live_issued b hb)
  · refine List.nodup_cons.mpr ⟨fun hmem => ?_, hv.live_nodup⟩
    have := hold.odd.mpr hmem
    omega
  · intro x hx
    refine Function.update_of_ne (fun heq => ?_) ..
    exact hx c hc ho (heq ▸ ha.covers (hg.shaped c hc) (by omega))
  · exact fun n hn => Function.update_of_ne (hn c hc ho) ..

theorem allocBump_mem (sl : GenSlab) (h : SlabHeap) :
    (sl.allocBump h).2.2.mem = Function.update h.mem (sl.bump + 8) 1 := by
  unfold GenSlab.allocBump
  dsimp only
  split <;> rfl

theorem zeroGenerations_other {slotBytes n ptr x : Nat} {mem : Memory}
    (hx : ∀ k < n, x ≠ ptr + k * slotBytes + 8) : zeroGenerations slotBytes n ptr mem x = mem x := by
  induction n generalizing ptr mem with
  | zero => rfl
  | succ n ih =>
    have hfirst : x ≠ ptr + 8 := by simpa using hx 0 (by omega)
    rw [zeroGenerations, ih fun k hk => ?_, Function.update_of_ne hfirst]
    have := hx (k + 1) (by omega)
    rw [Nat.succ_mul] at this
    omega

theorem zeroGenerations_zero {slotBytes n ptr x : Nat} {mem : Memory} (hx : mem x = 0) :
    zeroGenerations slotBytes n ptr mem x = 0 := by
  induction n generalizing ptr mem with
  | zero => exact hx
  | succ n ih =>
    refine ih ?_
    by_cases heq : x = ptr + 8
    · rw [heq, Function.update_self]
    · rw [Function.update_of_ne heq, hx]

theorem zeroGenerations_slot {slotBytes n ptr k : Nat} {mem : Memory} (hk : k < n) :
    zeroGenerations slotBytes n ptr mem (ptr + k * slotBytes + 8) = 0 := by
  induction n generalizing ptr mem k with
  | zero => simp at hk
  | succ n ih =>
    cases k with
    | zero =>
      rw [Nat.zero_mul, Nat.add_zero, zeroGenerations]
      exact zeroGenerations_zero (Function.update_self ..)
    | succ k =>
      have heq : ptr + (k + 1) * slotBytes + 8 = ptr + slotBytes + k * slotBytes + 8 := by
        rw [Nat.succ_mul]
        omega
      rw [heq]
      exact ih (by omega)

/-- When `alloc` needs a new chunk, all slots of the others have been given out. -/
theorem SlabValid.bumped_of_grows (hv : SlabValid h sl fl retired issued live)
    (hg : h.index.Grown) (hgrows : sl.Grows) (a : Nat) : sl.Bumped a := by
  have hend : sl.bumpEnd ≤ sl.bump := by
    by_contra hlt
    have hbump : sl.bump ≠ 0 := by
      intro hz
      rcases hv.bumping with ⟨_, hz'⟩ | ⟨c, hc, _, _, _, k, _, heq⟩
      · omega
      · have := (hg.shaped c hc).pos
        omega
    rcases hv.bumping with ⟨hz, _⟩ | ⟨c, hc, ho, hend, _, k, hk, heq⟩
    · exact hbump hz
    · -- the front is a slot, and it ends within the chunk
      have hbytes := ho.2.1
      have hlt' : k < c.slots := by
        refine Nat.lt_of_le_of_ne hk fun hkeq => ?_
        have := (hg.shaped c hc).ends
        rw [hkeq] at heq
        omega
      have hfits := ChunkSpan.Slot.end_le ⟨k, hlt', heq⟩ (hg.shaped c hc)
      rcases hgrows.2 with hz | hover
      · exact hbump hz
      · omega
  unfold GenSlab.Bumped
  omega

theorem slots_pos (sl : GenSlab) : 0 < sl.slots := Nat.lt_of_lt_of_le Nat.one_pos (Nat.le_max_right ..)

/-- The chunk that `grow` registers. -/
def GenSlab.newChunk (sl : GenSlab) (chunk counter : Nat) : ChunkSpan :=
  ⟨chunk, chunk + sl.chunkBytes, sl.slotBytes, counter, sl.isGlobal⟩

theorem newChunk_slots {chunk counter : Nat} (hsize : 24 ≤ sl.slotBytes) :
    (sl.newChunk chunk counter).slots = sl.slots := by
  unfold ChunkSpan.slots GenSlab.newChunk GenSlab.chunkBytes
  dsimp only
  rw [Nat.add_sub_cancel_left, Nat.mul_div_cancel _ (by omega)]

theorem newChunk_shaped {chunk counter : Nat} (hv : SlabValid h sl fl retired issued live)
    (hfresh : h.Fresh sl.chunkBytes chunk counter) : (sl.newChunk chunk counter).Shaped where
  pos := hfresh.1
  aligned := hfresh.2.1
  size := hv.size
  slotAligned := hv.aligned
  ends := by
    rw [newChunk_slots hv.size]
    rfl
  bound := hfresh.2.2.1
  counted := hfresh.2.2.2.1

/-- The words of the other chunks stay as they were. -/
theorem grow_mem {chunk counter x : Nat} (hv : SlabValid h sl fl retired issued live)
    (hfresh : h.Fresh sl.chunkBytes chunk counter) (hc : c ∈ h.index.spans) (hx : c.Covers x) :
    (sl.grow h chunk counter).2.mem x = h.mem x := by
  refine zeroGenerations_other fun k hk heq => ?_
  have hslot : (sl.newChunk chunk counter).Slot (chunk + k * sl.slotBytes) :=
    ⟨k, by rwa [newChunk_slots hv.size], rfl⟩
  have hcov := hslot.covers (newChunk_shaped hv hfresh) (x := 8) (by omega)
  rw [← heq] at hcov
  obtain ⟨hlow, hhigh⟩ := hcov
  obtain ⟨hlow', hhigh'⟩ := hx
  simp only [GenSlab.newChunk] at hlow hhigh
  rcases (hfresh.2.2.2.2 c hc).1 with hle | hle <;> omega

theorem grow_valid {chunk counter : Nat} (hg : h.index.Grown)
    (hv : SlabValid h sl fl retired issued live) (hgrows : sl.Grows)
    (hfresh : h.Fresh sl.chunkBytes chunk counter) :
    SlabValid (sl.grow h chunk counter).2 (sl.grow h chunk counter).1 fl retired issued live ∧
      SlabEffect h sl (sl.grow h chunk counter).2 (sl.grow h chunk counter).1 := by
  have hsize := hv.size
  have hshaped := newChunk_shaped hv hfresh
  have hapart := hfresh.2.2.2.2
  have hbytes : 0 < sl.chunkBytes := Nat.mul_pos (slots_pos sl) (by omega)
  have hspans : ∀ d, d ∈ (sl.grow h chunk counter).2.index.spans ↔
      d = sl.newChunk chunk counter ∨ d ∈ h.index.spans := fun d => mem_spans_register
  have hcounter : ∀ d ∈ h.index.spans, d.liveCount ≠ counter := fun d hd => (hapart d hd).2
  have hstart : ∀ d ∈ h.index.spans, d.start ≠ chunk := by
    intro d hd
    have hlt := hg.valid.sorted.2 d hd
    rcases (hapart d hd).1 with hle | hle <;> omega
  have howns : ∀ d ∈ h.index.spans, (sl.grow h chunk counter).1.Owns d ↔ sl.Owns d := by
    intro d hd
    have hne := hstart d hd
    simp [GenSlab.Owns, GenSlab.grow, GenSlab.chunkBytes, GenSlab.slots, hne]
  have hnew : (sl.grow h chunk counter).1.Owns (sl.newChunk chunk counter) :=
    ⟨List.mem_append_right _ (List.mem_singleton.mpr rfl), rfl, rfl, rfl⟩
  have hmem : ∀ d ∈ h.index.spans, ∀ x, d.Covers x →
      (sl.grow h chunk counter).2.mem x = h.mem x := fun d hd x hx => grow_mem hv hfresh hd hx
  have hcounts : ∀ d ∈ h.index.spans,
      (sl.grow h chunk counter).2.liveCounts d.liveCount = h.liveCounts d.liveCount :=
    fun d hd => Function.update_of_ne (hcounter d hd) ..
  have hzero : ∀ a, (sl.newChunk chunk counter).Slot a →
      (sl.grow h chunk counter).2.mem (a + 8) = 0 := by
    rintro a ⟨k, hk, rfl⟩
    rw [newChunk_slots hsize] at hk
    exact zeroGenerations_slot hk
  have hgen : ∀ d ∈ h.index.spans, ∀ a, d.Slot a →
      (sl.grow h chunk counter).2.mem (a + 8) = h.mem (a + 8) :=
    fun d hd a ha => hmem d hd _ (ha.covers (hg.shaped d hd) (by omega))
  have hbumped : ∀ d ∈ h.index.spans, ∀ a, d.Slot a → (sl.grow h chunk counter).1.Bumped a := by
    intro d hd a ha
    obtain ⟨hlow, hhigh⟩ := ha.covers (hg.shaped d hd) (x := 0) (by omega)
    simp only [GenSlab.Bumped, GenSlab.grow]
    rcases (hapart d hd).1 with hle | hle <;> omega
  have hnotin : sl.newChunk chunk counter ∉ h.index.spans := fun hd => hstart _ hd rfl
  refine ⟨{
    size := hsize
    aligned := hv.aligned
    owned := fun p hp => ?_
    bumping := .inr ⟨_, (hspans _).mpr (.inl rfl), hnew, rfl, rfl, 0, Nat.zero_le _, by
      simp [GenSlab.grow, GenSlab.newChunk]⟩
    links := hv.links.congr fun a ha => ?_
    nodup := hv.nodup
    freed := fun a ha => ?_
    slot := fun d hd ho a ha => ?_
    reclaimed := fun d hr => ?_
    counts := fun d hd ho => ?_
    handed := fun b hb => ?_
    live_issued := hv.live_issued
    live_nodup := hv.live_nodup }, {
    grown := hg.register ⟨Nat.lt_add_of_pos_right hbytes, fun d hd => (hapart d hd).1⟩ hshaped hcounter
    kept := fun d hd => (hspans d).mpr (.inr hd)
    new := fun d hd => ?_
    owns := howns
    mem := fun d hd _ => hmem d hd
    counts := fun d hd _ => hcounts d hd }⟩
  · rcases List.mem_append.mp hp with hp | hp
    · obtain ⟨d, hd, ho, heq⟩ := hv.owned p hp
      exact ⟨d, (hspans d).mpr (.inr hd), (howns d hd).mpr ho, heq⟩
    · rw [List.mem_singleton.mp hp]
      exact ⟨_, (hspans _).mpr (.inl rfl), hnew, rfl⟩
  · obtain ⟨_, _, d, hd, _, hslot, _⟩ := hv.freed a ha
    exact hmem d hd _ (hslot.covers (hg.shaped d hd) (by omega))
  · obtain ⟨_, hdead, d, hd, ho, hslot, hr⟩ := hv.freed a ha
    exact ⟨hbumped d hd a hslot, by rwa [hgen d hd a hslot], d, (hspans d).mpr (.inr hd),
      (howns d hd).mpr ho, hslot, hr⟩
  · rcases (hspans d).mp hd with rfl | hd
    · have hz := hzero a ha
      refine ⟨fun _ => hz, fun hb => absurd ?_ hb, fun hr => absurd (hv.reclaimed _ hr).1 hnotin, ?_⟩
      · obtain ⟨hlow, hhigh⟩ := ha.covers hshaped (x := 0) (by omega)
        exact ⟨hlow, hhigh⟩
      · rw [hz]
        refine ⟨fun hodd => by omega, fun hlive => ?_⟩
        -- a live body is a body of one of the old chunks
        obtain ⟨e, he, _, b, hb, _, heq⟩ := hv.handed _ (hv.live_issued _ hlive)
        obtain rfl : b = a := by omega
        obtain ⟨hlow, hhigh⟩ := ha.covers hshaped (x := 0) (by omega)
        obtain ⟨hlow', hhigh'⟩ := hb.covers (hg.shaped e he) (x := 0) (by omega)
        simp only [GenSlab.newChunk] at hlow hhigh
        rcases (hapart e he).1 with hle | hle <;> omega
    · have hold := hv.slot d hd ((howns d hd).mp ho) a ha
      exact hold.congr (hgen d hd a ha)
        ⟨fun _ => hv.bumped_of_grows hg hgrows a, fun _ => hbumped d hd a ha⟩
  · obtain ⟨hd, ho⟩ := hv.reclaimed d hr
    exact ⟨(hspans d).mpr (.inr hd), (howns d hd).mpr ho⟩
  · rcases (hspans d).mp hd with rfl | hd
    · have hz : liveSlots (sl.grow h chunk counter).2.mem (sl.newChunk chunk counter) = 0 :=
        List.countP_eq_zero.mpr fun k hk => by
          rw [hzero _ ⟨k, List.mem_range.mp hk, rfl⟩]
          simp
      rw [hz]
      exact Function.update_self ..
    · rw [hcounts d hd, hv.counts d hd ((howns d hd).mp ho)]
      exact (liveSlots_congr fun a ha => by rw [hgen d hd a ha]).symm
  · obtain ⟨d, hd, ho, a, ha, _, heq⟩ := hv.handed b hb
    exact ⟨d, (hspans d).mpr (.inr hd), (howns d hd).mpr ho, a, ha, hbumped d hd a ha, heq⟩
  · rcases (hspans d).mp hd with rfl | hd
    · exact .inr ⟨hnew, hstart⟩
    · exact .inl hd

/-- The slab after `free` has put the slot `a` of `c` on the free list. -/
def freedHeap (h : SlabHeap) (sl : GenSlab) (c : ChunkSpan) (a : Nat) (th : SlabThread) :
    SlabHeap where
  mem := Function.update (Function.update h.mem (a + 8) ((h.mem (a + 8) + 1) % 2 ^ 64)) (a + 16)
    sl.freeHead
  liveCounts := Function.update h.liveCounts c.liveCount (h.liveCounts c.liveCount - 1)
  index := (findChunkForAddr h.index th (a + 16)).2

theorem free_eq (page : Nat) (hg : h.index.Grown) (hc : c ∈ h.index.spans) (ha : c.Slot a)
    (hodd : h.mem (a + 8) % 2 = 1) (th : SlabThread) : sl.free page h th (a + 16) =
      if h.liveCounts c.liveCount = 1 ∧ ¬ (c.start ≤ sl.bump ∧ sl.bump < c.end) then
        (GenSlab.reclaim page { sl with freeHead := a } (freedHeap h sl c a th) c).map (true, ·)
      else some (true, { sl with freeHead := a }, freedHeap h sl c a th) := by
  have hfind := SlabHeap.find_slot hg hc ha th
  have hgen : a + 16 - 8 = a + 8 := by omega
  have hne : ¬ h.mem (a + 8) % 2 = 0 := by omega
  simp only [GenSlab.free, hgen, if_neg hne, hfind, Nat.add_sub_cancel]
  rfl

theorem free_dead (page : Nat) (heven : h.mem (a + 8) % 2 = 0) (th : SlabThread) :
    sl.free page h th (a + 16) = some (false, sl, h) := by
  have hgen : a + 16 - 8 = a + 8 := by omega
  simp only [GenSlab.free, hgen, if_pos heven]

theorem freedHeap_mem (h : SlabHeap) (sl : GenSlab) (c : ChunkSpan) (a : Nat) (th : SlabThread) :
    (freedHeap h sl c a th).mem =
      Function.update (Function.update h.mem (a + 8) ((h.mem (a + 8) + 1) % 2 ^ 64)) (a + 16)
        sl.freeHead := rfl

theorem freed_gen (h : SlabHeap) (sl : GenSlab) (c : ChunkSpan) (a : Nat) (th : SlabThread) :
    (freedHeap h sl c a th).mem (a + 8) = (h.mem (a + 8) + 1) % 2 ^ 64 := by
  rw [freedHeap_mem, Function.update_of_ne (by omega), Function.update_self]

theorem freed_word (hg : h.index.Grown) (hc : c ∈ h.index.spans) (ha : c.Slot a)
    {d : ChunkSpan} (hd : d ∈ h.index.spans) {b : Nat} (hb : d.Slot b) (hne : b ≠ a) {y : Nat}
    (hy : y < 24) : (freedHeap h sl c a th).mem (b + y) = h.mem (b + y) := by
  rw [freedHeap_mem, Function.update_of_ne (hg.word_ne hc hd ha hb hne.symm (by omega) hy),
    Function.update_of_ne (hg.word_ne hc hd ha hb hne.symm (by omega) hy)]

theorem freed_valid (hg : h.index.Grown) (hv : SlabValid h sl fl retired issued live)
    (hc : c ∈ h.index.spans) (ho : sl.Owns c) (ha : c.Slot a) (hodd : h.mem (a + 8) % 2 = 1)
    (th : SlabThread) :
    SlabValid (freedHeap h sl c a th) { sl with freeHead := a } (a :: fl) retired issued
      (live.erase (a + 16)) ∧
      SlabEffect h sl (freedHeap h sl c a th) { sl with freeHead := a } := by
  have hspans : (freedHeap h sl c a th).index.spans = h.index.spans := hg.find_spans th (a + 16)
  have hold := hv.slot c hc ho a ha
  have heven : (freedHeap h sl c a th).mem (a + 8) % 2 = 0 := by
    rw [freed_gen, succ_mod_even hodd]
  have hnot : a ∉ fl := fun hmem => by
    have := (hv.freed a hmem).2.1
    omega
  have hbumped : sl.Bumped a := by
    by_contra hub
    have := hold.unbumped hub
    omega
  have hretired : c ∉ retired := fun hr => by
    have := (hold.gone hr).2
    omega
  have hpos : a ≠ 0 := by
    have := (hg.shaped c hc).pos
    have := ha.le
    omega
  have hlive : a + 16 ∈ live := hold.odd.mp hodd
  have hchange : SlotChange c a h sl fl live (freedHeap h sl c a th) { sl with freeHead := a }
      (a :: fl) (live.erase (a + 16)) := {
    spans := hspans
    owns := fun _ => Iff.rfl
    gen := fun d hd b hb hne => freed_word hg hc ha hd hb hne (by omega)
    bumped := fun _ _ _ _ _ => Iff.rfl
    freed := fun b hne => by simp [hne]
    live := fun b hne => List.mem_erase_of_ne (by omega)
    counts := fun d hd hne =>
      Function.update_of_ne (fun heq => hne (hg.counters d hd c hc heq)) .. }
  refine ⟨hchange.valid hg hv hc ho ha rfl rfl hv.bumping ?_ (List.nodup_cons.mpr ⟨hnot, hv.nodup⟩)
    (fun _ => ⟨hretired, heven⟩) hbumped ?_ ?_ (fun _ hb => .inr hb) ?_ (hv.live_nodup.erase _),
    .within hg (hg.find th (a + 16)) hspans (fun _ => Iff.rfl) ?_ ?_⟩
  · refine Linked.Links.cons (hv.links.congr fun b hb => ?_) hpos hnot
    obtain ⟨_, _, d, hd, _, hdb, _⟩ := hv.freed b hb
    exact Function.update_of_ne
      (hg.word_ne hc hd ha hdb (fun heq => hnot (heq ▸ hb)) (by omega) (by omega)) ..
  · exact {
      unbumped := fun hub => absurd hbumped hub
      dead := fun _ _ => .inl (by simp)
      gone := fun hr => absurd hr hretired
      odd := by
        refine ⟨fun hodd' => by omega, fun hmem => absurd hmem ?_⟩
        exact hv.live_nodup.not_mem_erase }
  · have hcount := hv.counts c hc ho
    have hflip := hchange.liveSlots hg hc ha
    have hself : (freedHeap h sl c a th).liveCounts c.liveCount = h.liveCounts c.liveCount - 1 :=
      Function.update_self ..
    rw [hself]
    omega
  · exact fun b hb => hv.live_issued b (List.mem_of_mem_erase hb)
  · intro x hx
    have hout := hx c hc ho
    rw [freedHeap_mem, Function.update_of_ne, Function.update_of_ne]
    · exact fun heq => hout (heq ▸ ha.covers (hg.shaped c hc) (by omega))
    · exact fun heq => hout (heq ▸ ha.covers (hg.shaped c hc) (by omega))
  · exact fun n hn => Function.update_of_ne (hn c hc ho) ..

theorem reclaimPages_cases (page : Nat) (mem : Memory) (addr len x : Nat) :
    reclaimPages page mem addr len x = mem x ∨
      (reclaimPages page mem addr len x = 0 ∧ addr ≤ x ∧ x < addr + len) := by
  unfold reclaimPages
  split
  next hin =>
    obtain ⟨hpage, hlow, hhigh⟩ := hin
    have hup : addr ≤ (addr + page - 1) / page * page := by
      have hmod := Nat.div_add_mod (addr + page - 1) page
      have hlt := Nat.mod_lt (addr + page - 1) hpage
      rw [Nat.mul_comm] at hmod
      omega
    have hdown := Nat.div_mul_le_self (addr + len) page
    exact .inr ⟨rfl, by omega, by omega⟩
  next => exact .inl rfl

/-- A free list with as many nodes in the chunk as the chunk has slots holds all of them. -/
theorem SlabValid.all_freed (hv : SlabValid h sl fl retired issued live) (hg : h.index.Grown)
    (hc : c ∈ h.index.spans) (hcount : fl.countP (inChunk c.start c.end) = c.slots)
    (ha : c.Slot a) : a ∈ fl := by
  have hsub : fl.filter (inChunk c.start c.end) ⊆
      (List.range c.slots).map fun k => c.start + k * c.slotBytes := by
    intro b hb
    obtain ⟨hmem, hin⟩ := List.mem_filter.mp hb
    simp only [inChunk, Bool.and_eq_true, decide_eq_true_eq] at hin
    obtain ⟨_, _, d, hd, _, hdb, _⟩ := hv.freed b hmem
    have hdc := hg.valid.sorted.unique hd hc (hdb.covers (hg.shaped d hd) (x := 0) (by omega)) hin
    obtain ⟨k, hk, rfl⟩ := hdc ▸ hdb
    exact List.mem_map.mpr ⟨k, List.mem_range.mpr hk, rfl⟩
  have hperm := (List.subperm_of_subset (hv.nodup.filter _) hsub).perm_of_length_le (by
    rw [List.length_map, List.length_range, ← List.countP_eq_length_filter, hcount])
  obtain ⟨k, hk, rfl⟩ := ha
  have hmem := hperm.mem_iff.mpr (List.mem_map.mpr ⟨k, List.mem_range.mpr hk, rfl⟩)
  exact (List.mem_filter.mp hmem).1

/-- What reclaiming a chunk may do: its slots leave the free list and count as retired. -/
structure Reclaims (h : SlabHeap) (sl : GenSlab) (fl : List Nat) (retired : List ChunkSpan)
    (h' : SlabHeap) (sl' : GenSlab) (fl' : List Nat) (retired' : List ChunkSpan) : Prop where
  effect : SlabEffect h sl h' sl'
  spans : h'.index.spans = h.index.spans
  retired : ∀ d ∈ retired, d ∈ retired'
  front : sl'.bump = sl.bump ∧ sl'.bumpEnd = sl.bumpEnd
  freed : ∀ a ∈ fl, a ∈ fl' ∨ ∃ d ∈ retired', d.Slot a
  gen : ∀ d ∈ h.index.spans, ∀ b, d.Slot b →
    h'.mem (b + 8) = h.mem (b + 8) ∨ (h'.mem (b + 8) = 0 ∧ d ∈ retired')

theorem Reclaims.refl (hg : h.index.Grown) : Reclaims h sl fl retired h sl fl retired where
  effect := .within hg hg rfl (fun _ => Iff.rfl) (fun _ _ => rfl) (fun _ _ => rfl)
  spans := rfl
  retired _ hd := hd
  front := ⟨rfl, rfl⟩
  freed _ ha := .inl ha
  gen _ _ _ _ := .inl rfl

theorem mem_inChunk {x : Nat} : inChunk c.start c.end x = true ↔ c.Covers x := by
  simp [inChunk, ChunkSpan.covers_iff]

theorem reclaim_valid (page : Nat) (hg : h.index.Grown)
    (hv : SlabValid h sl fl retired issued live) (hc : c ∈ h.index.spans) (ho : sl.Owns c) :
    ∃ sl' h' fl' retired', sl.reclaim page h c = some (sl', h') ∧
      SlabValid h' sl' fl' retired' issued live ∧
        Reclaims h sl fl retired h' sl' fl' retired' := by
  have hcount : sl.countChunkSlots h.mem c.start c.end =
      some (fl.countP (inChunk c.start c.end)) := by
    rw [GenSlab.countChunkSlots, Linked.walk_eq hv.links hv.length_lt_fuel, Linked.foldl_count,
      Nat.zero_add]
  have hhead : Linked.Cell.head.Apart fl := fun _ heq => by cases heq
  obtain ⟨list, hunlink, hlinks, hsame, _⟩ :=
    @Linked.remove_spec 16 _ fl (inChunk c.start c.end) sl.fuel .head ⟨sl.freeHead, h.mem⟩
      hv.links rfl hv.nodup hhead hv.length_lt_fuel
  simp only [GenSlab.reclaim, hcount]
  by_cases hall : fl.countP (inChunk c.start c.end) = c.slots
  case neg =>
    refine ⟨sl, h, fl, retired, ?_, hv, .refl hg⟩
    simp only [Option.bind_eq_bind, Option.bind_some]
    exact if_neg hall
  -- every slot of the chunk is on the free list
  have hfreed : ∀ a, c.Slot a → a ∈ fl := fun a ha => hv.all_freed hg hc hall ha
  have hcov : ∀ d ∈ h.index.spans, ∀ b, d.Slot b → c.Covers b → d = c := fun d hd b hb hin =>
    hg.valid.sorted.unique hd hc (hb.covers (hg.shaped d hd) (x := 0) (by omega)) hin
  have hword : ∀ d ∈ h.index.spans, ∀ b, d.Slot b → list.mem (b + 8) = h.mem (b + 8) := by
    intro d hd b hb
    refine hsame _ (fun a ha heq => ?_) (fun a ha => by cases ha)
    obtain ⟨_, _, e, he, _, hea, _⟩ := hv.freed a ha
    rcases eq_or_ne b a with rfl | hne
    · omega
    · exact hg.word_ne he hd hea hb hne.symm (by omega) (by omega) heq
  have hin : ∀ x, ¬ c.Covers x →
      reclaimPages page list.mem c.start (c.end - c.start) x = list.mem x := by
    intro x hx
    have hle := Nat.le_of_lt (hg.valid.sorted.2 c hc)
    rcases reclaimPages_cases page list.mem c.start (c.end - c.start) x with heq | ⟨_, hlow, hhigh⟩
    · exact heq
    · exact absurd ⟨hlow, by omega⟩ hx
  have hother : ∀ d ∈ h.index.spans, d ≠ c → ∀ b, d.Slot b → ∀ y < 24, ¬ c.Covers (b + y) :=
    fun d hd hne b hb y hy hin =>
      hne (hg.valid.sorted.unique hd hc (hb.covers (hg.shaped d hd) hy) hin)
  have hgen : ∀ d ∈ h.index.spans, d ≠ c → ∀ b, d.Slot b →
      reclaimPages page list.mem c.start (c.end - c.start) (b + 8) = h.mem (b + 8) := by
    intro d hd hne b hb
    rw [hin _ (hother d hd hne b hb 8 (by omega)), hword d hd b hb]
  have heven : ∀ b, c.Slot b →
      reclaimPages page list.mem c.start (c.end - c.start) (b + 8) % 2 = 0 := by
    intro b hb
    rcases reclaimPages_cases page list.mem c.start (c.end - c.start) (b + 8) with heq | ⟨heq, _⟩
    · rw [heq, hword c hc b hb]
      exact (hv.freed b (hfreed b hb)).2.1
    · rw [heq]
  have hkept : ∀ b, b ∈ fl.filter (! inChunk c.start c.end ·) ↔ b ∈ fl ∧ ¬ c.Covers b := by
    intro b
    rw [List.mem_filter, Bool.not_eq_true', ← Bool.not_eq_true, mem_inChunk]
  refine ⟨{ sl with freeHead := list.head },
    { h with mem := reclaimPages page list.mem c.start (c.end - c.start) },
    fl.filter (! inChunk c.start c.end ·), c :: retired, ?_, ?_, ?_⟩
  · simp only [Option.bind_eq_bind, Option.bind_some, GenSlab.unlinkChunkSlots, hunlink]
    exact if_pos hall
  · exact {
      size := hv.size
      aligned := hv.aligned
      owned := hv.owned
      bumping := hv.bumping
      links := hlinks.congr fun b hb => by
        obtain ⟨hmem, hout⟩ := (hkept b).mp hb
        obtain ⟨_, _, d, hd, _, hdb, _⟩ := hv.freed b hmem
        have hne : d ≠ c := fun heq =>
          hout (heq ▸ hdb.covers (hg.shaped d hd) (x := 0) (by omega))
        exact hin _ (hother d hd hne b hdb 16 (by omega))
      nodup := hv.nodup.filter _
      freed := fun b hb => by
        obtain ⟨hmem, hout⟩ := (hkept b).mp hb
        obtain ⟨hbumped, hdead, d, hd, hod, hdb, hr⟩ := hv.freed b hmem
        have hne : d ≠ c := fun heq =>
          hout (heq ▸ hdb.covers (hg.shaped d hd) (x := 0) (by omega))
        refine ⟨hbumped, ?_, d, hd, hod, hdb, by simp [hne, hr]⟩
        dsimp only
        rwa [hgen d hd hne b hdb]
      slot := fun d hd hod b hb => by
        have hold := hv.slot d hd hod b hb
        by_cases hdc : d = c
        · subst hdc
          obtain ⟨hbumped, hdead, _⟩ := hv.freed b (hfreed b hb)
          refine ⟨fun hub => absurd hbumped hub, fun _ _ => .inr (by simp),
            fun _ => ⟨hbumped, heven b hb⟩, fun hodd => ?_, fun hlive => ?_⟩
          · exact absurd (hodd.symm.trans (heven b hb)) (by omega)
          · exact absurd ((hold.odd.mpr hlive).symm.trans hdead) (by omega)
        · have hsame := hgen d hd hdc b hb
          have hout := hother d hd hdc b hb 0 (by omega)
          have hcongr : SlotValid (reclaimPages page list.mem c.start (c.end - c.start)) sl fl
              retired live d b := hold.congr hsame Iff.rfl
          refine ⟨hcongr.unbumped, fun hbumped hdead => ?_, fun hr => ?_, hcongr.odd⟩
          · rcases hcongr.dead hbumped hdead with hmem | hr
            · exact .inl ((hkept b).mpr ⟨hmem, hout⟩)
            · exact .inr (List.mem_cons_of_mem c hr)
          · rcases List.mem_cons.mp hr with heq | hr
            · exact absurd heq hdc
            · exact hcongr.gone hr
      reclaimed := fun d hr => by
        rcases List.mem_cons.mp hr with rfl | hr
        · exact ⟨hc, ho⟩
        · exact hv.reclaimed d hr
      counts := fun d hd hod => by
        rw [hv.counts d hd hod]
        refine (liveSlots_congr fun b hb => ?_).symm
        dsimp only
        by_cases hdc : d = c
        · subst hdc
          rw [heven b hb, (hv.freed b (hfreed b hb)).2.1]
        · rw [hgen d hd hdc b hb]
      handed := hv.handed
      live_issued := hv.live_issued
      live_nodup := hv.live_nodup }
  · refine {
      effect := .within hg hg rfl (fun _ => Iff.rfl) (fun x hx => ?_) (fun _ _ => rfl)
      spans := rfl
      retired := fun d hd => List.mem_cons_of_mem c hd
      front := ⟨rfl, rfl⟩
      freed := fun a ha => ?_
      gen := fun d hd b hb => ?_ }
    · dsimp only
      rw [hin x (hx c hc ho)]
      refine hsame x (fun a ha heq => ?_) (fun a ha => by cases ha)
      obtain ⟨_, _, d, hd, hod, hda, _⟩ := hv.freed a ha
      exact hx d hd hod (heq ▸ hda.covers (hg.shaped d hd) (by omega))
    · by_cases hca : c.Covers a
      · obtain ⟨_, _, d, hd, _, hda, _⟩ := hv.freed a ha
        exact .inr ⟨c, by simp, hcov d hd a hda hca ▸ hda⟩
      · exact .inl ((hkept a).mpr ⟨ha, hca⟩)
    · by_cases hdc : d = c
      · subst hdc
        rcases reclaimPages_cases page list.mem d.start (d.end - d.start) (b + 8) with
          heq | ⟨heq, _⟩
        · exact .inl (heq.trans (hword d hd b hb))
        · exact .inr ⟨heq, by simp⟩
      · exact .inl (hgen d hd hdc b hb)

/-- What a call does to the generation of a slot, but for the slots it retires. -/
def GenStep (h h' : SlabHeap) (retired' : List ChunkSpan) : Prop :=
  ∀ d ∈ h.index.spans, ∀ b, d.Slot b → h'.mem (b + 8) = h.mem (b + 8) ∨
    h'.mem (b + 8) = (h.mem (b + 8) + 1) % 2 ^ 64 ∨ d ∈ retired'

theorem GenStep.update {b : Nat} (hmem : ∀ x, x ≠ b → h'.mem x = h.mem x)
    (hb : h'.mem b = (h.mem b + 1) % 2 ^ 64) : GenStep h h' retired := by
  intro d _ e _
  by_cases heq : e + 8 = b
  · rw [heq]
    exact .inr (.inl hb)
  · exact .inl (hmem _ heq)

/-- Where the body that `alloc` returns comes from: a new chunk, or a dead slot of one of the
chunks the slab has. -/
def Handed (h h' : SlabHeap) (b : Nat) : Prop :=
  ((∀ c ∈ h.index.spans, ¬ c.Covers b) ∧ h'.mem (b - 8) = 1) ∨
    (h.mem (b - 8) % 2 = 0 ∧ h'.mem (b - 8) = (h.mem (b - 8) + 1) % 2 ^ 64)

theorem alloc_valid {chunk counter : Nat} (hg : h.index.Grown)
    (hv : SlabValid h sl fl retired issued live)
    (hfresh : sl.Grows → h.Fresh sl.chunkBytes chunk counter) (th : SlabThread) :
    ∃ fl', SlabValid (sl.alloc h th chunk counter).2.2 (sl.alloc h th chunk counter).2.1 fl'
        retired ((sl.alloc h th chunk counter).1.1 :: issued)
        ((sl.alloc h th chunk counter).1.1 :: live) ∧
      SlabEffect h sl (sl.alloc h th chunk counter).2.2 (sl.alloc h th chunk counter).2.1 ∧
      GenStep h (sl.alloc h th chunk counter).2.2 retired ∧
      Handed h (sl.alloc h th chunk counter).2.2 (sl.alloc h th chunk counter).1.1 := by
  by_cases hfree : sl.freeHead = 0
  case neg =>
    simp only [GenSlab.alloc, ne_eq, hfree, not_false_eq_true, if_true]
    cases fl with
    | nil => exact absurd hv.links hfree
    | cons a fl =>
      obtain ⟨hvalid, heffect⟩ := allocFreed_valid hg hv th
      obtain ⟨_, hdead, c, hc, _, ha, _⟩ := hv.freed a (by simp)
      rw [allocFreed_eq hg hc ha hv.links.1 th] at hvalid heffect ⊢
      refine ⟨fl, hvalid, heffect, .update (b := a + 8) (fun x hx => Function.update_of_ne hx ..)
        (Function.update_self ..), .inr ⟨hdead, Function.update_self ..⟩⟩
  have hbody : ∀ bump, bump + 16 - 8 = bump + 8 := fun bump => by omega
  by_cases hgrows : sl.Grows
  · simp only [GenSlab.alloc, ne_eq, hfree, not_true_eq_false, if_false, hgrows, if_true]
    have hf := hfresh hgrows
    obtain ⟨hvalid, heffect⟩ := grow_valid hg hv hgrows hf
    have hsize : sl.slotBytes ≤ sl.chunkBytes := Nat.le_mul_of_pos_left _ (slots_pos sl)
    have hbump : (sl.grow h chunk counter).1.bump = chunk := rfl
    obtain ⟨hzero, _, hvalid', heffect'⟩ :=
      allocBump_valid heffect.grown hvalid (Nat.ne_of_gt hf.1) (Nat.add_le_add_left hsize _)
    have hnew : ∀ d ∈ h.index.spans, ∀ x < 24, ¬ d.Covers (chunk + x) := by
      intro d hd x hx hcov
      obtain ⟨hlow, hhigh⟩ := hcov
      have hle := hv.size
      rcases (hf.2.2.2.2 d hd).1 with hle | hle <;> omega
    refine ⟨fl, hvalid', heffect.trans heffect', fun d hd b hb => .inl ?_,
      .inl ⟨fun d hd => hnew d hd 16 (by omega), ?_⟩⟩
    · have hcov := hb.covers (hg.shaped d hd) (x := 8) (by omega)
      rw [allocBump_mem, hbump, Function.update_of_ne, grow_mem hv hf hd hcov]
      exact fun heq => hnew d hd 8 (by omega) (heq ▸ hcov)
    · rw [allocBump_mem, hbump]
      exact Function.update_self ..
  · simp only [GenSlab.alloc, ne_eq, hfree, not_true_eq_false, if_false, hgrows]
    have hroom : sl.bump ≠ 0 ∧ sl.bump + sl.slotBytes ≤ sl.bumpEnd := by
      unfold GenSlab.Grows at hgrows
      omega
    obtain ⟨hzero, _, hvalid, heffect⟩ := allocBump_valid hg hv hroom.1 hroom.2
    have hone : (sl.allocBump h).2.2.mem (sl.bump + 8) = (h.mem (sl.bump + 8) + 1) % 2 ^ 64 := by
      rw [allocBump_mem, Function.update_self, hzero]
      rfl
    refine ⟨fl, hvalid, heffect, .update (b := sl.bump + 8) (fun x hx => ?_) hone, .inr ⟨?_, hone⟩⟩
    · rw [allocBump_mem, Function.update_of_ne hx]
    · change h.mem (sl.bump + 16 - 8) % 2 = 0
      rw [hbody, hzero]

/-- What `free` does to a live body: it gets on the free list, and its chunk may be reclaimed. -/
theorem free_valid (page : Nat) (hg : h.index.Grown)
    (hv : SlabValid h sl fl retired issued live) (hc : c ∈ h.index.spans) (ho : sl.Owns c)
    (ha : c.Slot a) (hodd : h.mem (a + 8) % 2 = 1) (th : SlabThread) :
    ∃ sl' h' fl' retired', sl.free page h th (a + 16) = some (true, sl', h') ∧
      SlabValid h' sl' fl' retired' issued (live.erase (a + 16)) ∧ SlabEffect h sl h' sl' ∧
      Reclaims (freedHeap h sl c a th) { sl with freeHead := a } (a :: fl) retired h' sl' fl'
        retired' := by
  obtain ⟨hvalid, heffect⟩ := freed_valid hg hv hc ho ha hodd th
  rw [free_eq page hg hc ha hodd th]
  split
  next =>
    obtain ⟨sl', h', fl', retired', hrun, hvalid', hrec⟩ :=
      reclaim_valid page heffect.grown hvalid (heffect.kept c hc) ((heffect.owns c hc).mpr ho)
    exact ⟨sl', h', fl', retired', by rw [hrun]; rfl, hvalid', heffect.trans hrec.effect, hrec⟩
  next => exact ⟨_, _, _, _, rfl, hvalid, heffect, .refl heffect.grown⟩

theorem free_genStep {fl' : List Nat} {retired' : List ChunkSpan} (hg : h.index.Grown)
    (hc : c ∈ h.index.spans) (ha : c.Slot a) (th : SlabThread)
    (hrec : Reclaims (freedHeap h sl c a th) { sl with freeHead := a } (a :: fl) retired h' sl'
      fl' retired') : GenStep h h' retired' := by
  intro d hd b hb
  have hd' : d ∈ (freedHeap h sl c a th).index.spans := (hg.find_spans th (a + 16)).symm ▸ hd
  rcases hrec.gen d hd' b hb with heq | ⟨_, hr⟩
  · rcases eq_or_ne b a with rfl | hne
    · exact .inr (.inl (heq.trans (freed_gen h sl c b th)))
    · exact .inl (heq.trans (freed_word hg hc ha hd hb hne (by omega)))
  · exact .inr (.inr hr)

end Olive
