import Olive.GenSlabSteps

/-! Slabs that share a memory and a chunk table, through any sequence of calls. -/

namespace Olive

open Linked (Memory)
open Interleaving (Reachable)

variable {ι : Type} {w w' : SlabWorld ι} {fl : ι → List Nat}
  {retired : ι → List ChunkSpan} {page : Nat} {i : ι} {th : SlabThread}

structure SlabWorld.Valid (w : SlabWorld ι) (fl : ι → List Nat) (retired : ι → List ChunkSpan) :
    Prop where
  grown : w.heap.index.Grown
  slab : ∀ i, SlabValid w.heap (w.slabs i) (fl i) (retired i) (w.issued i) (w.live i)
  owner : ∀ c ∈ w.heap.index.spans, ∃ i, (w.slabs i).Owns c
  one : ∀ c ∈ w.heap.index.spans, ∀ i j, (w.slabs i).Owns c → (w.slabs j).Owns c → i = j

theorem valid_new {bodyBytes : Nat} (hbody : 0 < bodyBytes) (isGlobal : Bool) (mem : Memory) :
    SlabValid ⟨mem, fun _ => 0, .empty⟩ (.new bodyBytes isGlobal) [] [] [] [] where
  size := by
    unfold GenSlab.new
    dsimp only
    omega
  aligned := by
    unfold GenSlab.new
    dsimp only
    omega
  owned _ hp := by simp [GenSlab.new] at hp
  bumping := .inl ⟨rfl, rfl⟩
  links := rfl
  nodup := .nil
  freed _ ha := by simp at ha
  slot _ hc := by simp [ChunkIndex.empty, ChunkIndex.spans] at hc
  reclaimed _ hc := by simp at hc
  counts _ hc := by simp [ChunkIndex.empty, ChunkIndex.spans] at hc
  handed _ hb := by simp at hb
  live_issued _ hb := by simp at hb
  live_nodup := .nil

theorem world_empty {bodyBytes : ι → Nat} (hbody : ∀ i, 0 < bodyBytes i) (isGlobal : ι → Bool)
    (mem : Memory) :
    (SlabWorld.empty bodyBytes isGlobal mem).Valid (fun _ => []) (fun _ => []) where
  grown := grown_empty
  slab i := valid_new (hbody i) (isGlobal i) mem
  owner c hc := by simp [SlabWorld.empty, ChunkIndex.empty, ChunkIndex.spans] at hc
  one c hc := by simp [SlabWorld.empty, ChunkIndex.empty, ChunkIndex.spans] at hc

/-- The generation of the slot of a body. -/
def SlabWorld.gen (w : SlabWorld ι) (body : Nat) : Nat := w.heap.mem (body - 8)

theorem SlabWorld.Valid.slot_of_issued (hv : w.Valid fl retired) {b : Nat} (hb : b ∈ w.issued i) :
    ∃ c ∈ w.heap.index.spans, (w.slabs i).Owns c ∧ ∃ a, c.Slot a ∧ b = a + 16 := by
  obtain ⟨c, hc, ho, a, ha, _, heq⟩ := (hv.slab i).handed b hb
  exact ⟨c, hc, ho, a, ha, heq⟩

/-- A call on one slab keeps the others valid. -/
theorem SlabWorld.Valid.set [DecidableEq ι] (hv : w.Valid fl retired) {sl' : GenSlab} {h' : SlabHeap}
    {fl' : List Nat} {retired' : List ChunkSpan} {issued' live' : List Nat}
    (hslab : SlabValid h' sl' fl' retired' issued' live')
    (he : SlabEffect w.heap (w.slabs i) h' sl') :
    SlabWorld.Valid ⟨Function.update w.slabs i sl', h', Function.update w.issued i issued',
      Function.update w.live i live'⟩ (Function.update fl i fl')
      (Function.update retired i retired') where
  grown := he.grown
  slab j := by
    rcases eq_or_ne j i with rfl | hne
    · simpa using hslab
    · simp only [Function.update_of_ne hne]
      have hnot : ∀ c ∈ w.heap.index.spans, (w.slabs j).Owns c → ¬ (w.slabs i).Owns c :=
        fun c hc hj hi => hne (hv.one c hc j i hj hi)
      refine (hv.slab j).frame hv.grown (fun c ho => ⟨fun hc => ?_, he.kept c⟩)
        (fun c hc ho => he.mem c hc (hnot c hc ho)) (fun c hc ho => he.counts c hc (hnot c hc ho))
      rcases he.new c hc with hc | ⟨_, hnew⟩
      · exact hc
      · obtain ⟨d, hd, _, hstart⟩ := (hv.slab j).owned _ ho.1
        exact absurd hstart (hnew d hd)
  owner c hc := by
    rcases he.new c hc with hold | ⟨ho, _⟩
    · obtain ⟨j, hj⟩ := hv.owner c hold
      refine ⟨j, ?_⟩
      rcases eq_or_ne j i with rfl | hne
      · simpa using (he.owns c hold).mpr hj
      · simpa [hne] using hj
    · exact ⟨i, by simpa using ho⟩
  one c hc j k hj hk := by
    have hself : ∀ l, (Function.update w.slabs i sl' l).Owns c → l = i ∨
        (c ∈ w.heap.index.spans ∧ (w.slabs l).Owns c) := by
      intro l hl
      by_cases hli : l = i
      · exact .inl hli
      · rw [Function.update_of_ne hli] at hl
        refine .inr ⟨?_, hl⟩
        rcases he.new c hc with hc | ⟨_, hnew⟩
        · exact hc
        · obtain ⟨d, hd, _, hstart⟩ := (hv.slab l).owned _ hl.1
          exact absurd hstart (hnew d hd)
    have hi : c ∈ w.heap.index.spans → (Function.update w.slabs i sl' i).Owns c →
        (w.slabs i).Owns c := by
      intro hc' ho
      rw [Function.update_self] at ho
      exact (he.owns c hc').mp ho
    rcases hself j hj with rfl | ⟨hcj, hj'⟩ <;> rcases hself k hk with rfl | ⟨hck, hk'⟩
    · rfl
    · exact hv.one c hck _ _ (hi hck hj) hk'
    · exact hv.one c hcj _ _ hj' (hi hcj hk)
    · exact hv.one c hcj _ _ hj' hk'

/-- What every step keeps and does: valid slabs, no retired slot in use again, generations that go
up by one but for the slots of the chunks it retires. -/
structure WorldStep (w : SlabWorld ι) (fl : ι → List Nat) (retired : ι → List ChunkSpan)
    (w' : SlabWorld ι) (fl' : ι → List Nat) (retired' : ι → List ChunkSpan) : Prop where
  valid : w'.Valid fl' retired'
  kept : ∀ c ∈ w.heap.index.spans, c ∈ w'.heap.index.spans
  retired : ∀ i, ∀ c ∈ retired i, c ∈ retired' i
  gen : ∀ i, ∀ c ∈ w.heap.index.spans, (w.slabs i).Owns c → ∀ a, c.Slot a →
    w'.heap.mem (a + 8) = w.heap.mem (a + 8) ∨
      w'.heap.mem (a + 8) = (w.heap.mem (a + 8) + 1) % 2 ^ 64 ∨ c ∈ retired' i

/-- A call on one slab as a step of them all. -/
theorem WorldStep.of_slab [DecidableEq ι] (hv : w.Valid fl retired) {sl' : GenSlab} {h' : SlabHeap}
    {fl' : List Nat} {retired' : List ChunkSpan} {issued' live' : List Nat}
    (hslab : SlabValid h' sl' fl' retired' issued' live')
    (he : SlabEffect w.heap (w.slabs i) h' sl') (hr : ∀ c ∈ retired i, c ∈ retired')
    (hgen : GenStep w.heap h' retired') :
    WorldStep w fl retired ⟨Function.update w.slabs i sl', h', Function.update w.issued i issued',
      Function.update w.live i live'⟩ (Function.update fl i fl')
      (Function.update retired i retired') where
  valid := hv.set hslab he
  kept := he.kept
  retired j c hc := by
    rcases eq_or_ne j i with rfl | hne
    · simpa using hr c hc
    · simpa [hne] using hc
  gen j c hc ho a ha := by
    rcases eq_or_ne j i with rfl | hne
    · simpa using hgen c hc a ha
    · refine .inl (he.mem c hc (fun hi => hne (hv.one c hc j i ho hi)) _ ?_)
      exact ha.covers (hv.grown.shaped c hc) (by omega)

/-- A store of an owner changes no generation and no link of a free slot. -/
theorem store_step (hv : w.Valid fl retired) {b addr v : Nat} (hb : b ∈ w.live i)
    (hw : (w.slabs i).Writable b addr) :
    WorldStep w fl retired
      { w with heap := { w.heap with mem := Function.update w.heap.mem addr v } } fl retired := by
  obtain ⟨c, hc, ho, a, ha, rfl⟩ := hv.slot_of_issued ((hv.slab i).live_issued b hb)
  have hodd := ((hv.slab i).slot c hc ho a ha).odd.mpr hb
  have hsize := (hv.slab i).size
  have hbytes := ho.2.1
  have hgen : ∀ d ∈ w.heap.index.spans, ∀ e, d.Slot e →
      Function.update w.heap.mem addr v (e + 8) = w.heap.mem (e + 8) := by
    intro d hd e he
    refine Function.update_of_ne (fun heq => ?_) ..
    have hsize' := (hv.grown.shaped d hd).size
    unfold GenSlab.Writable at hw
    rcases hv.grown.slots_apart hc hd ha he with rfl | hlt | hlt <;> omega
  have hlink : ∀ d ∈ w.heap.index.spans, ∀ e, d.Slot e → w.heap.mem (e + 8) % 2 = 0 →
      Function.update w.heap.mem addr v (e + 16) = w.heap.mem (e + 16) := by
    intro d hd e he heven
    refine Function.update_of_ne (fun heq => ?_) ..
    have hsize' := (hv.grown.shaped d hd).size
    unfold GenSlab.Writable at hw
    rcases hv.grown.slots_apart hc hd ha he with rfl | hlt | hlt <;> omega
  refine ⟨⟨hv.grown, fun j => ?_, hv.owner, hv.one⟩, fun _ hd => hd, fun _ _ hd => hd,
    fun _ d hd _ e he => .inl (hgen d hd e he)⟩
  have hj := hv.slab j
  exact {
    size := hj.size
    aligned := hj.aligned
    owned := hj.owned
    bumping := hj.bumping
    links := hj.links.congr fun e he => by
      obtain ⟨_, heven, d, hd, _, hde, _⟩ := hj.freed e he
      exact hlink d hd e hde heven
    nodup := hj.nodup
    freed := fun e he => by
      obtain ⟨hbumped, heven, d, hd, hod, hde, hr⟩ := hj.freed e he
      refine ⟨hbumped, ?_, d, hd, hod, hde, hr⟩
      dsimp only
      rwa [hgen d hd e hde]
    slot := fun d hd hod e he => (hj.slot d hd hod e he).congr (hgen d hd e he) Iff.rfl
    reclaimed := hj.reclaimed
    counts := fun d hd hod => by
      rw [hj.counts d hd hod]
      exact (liveSlots_congr fun e he => by
        dsimp only
        rw [hgen d hd e he]).symm
    handed := hj.handed
    live_issued := hj.live_issued
    live_nodup := hj.live_nodup }

theorem SlabWorld.Valid.dead_not_live {a : Nat} (hv : w.Valid fl retired)
    (heven : w.heap.mem (a + 8) % 2 = 0) (j : ι) : a + 16 ∉ w.live j := by
  intro hj
  obtain ⟨d, hd, hod, e, he, heq⟩ := hv.slot_of_issued ((hv.slab j).live_issued _ hj)
  obtain rfl : a = e := by omega
  have := ((hv.slab j).slot d hd hod a he).odd.mpr hj
  omega

theorem SlabWorld.Valid.retired_dead {c : ChunkSpan} {a : Nat} (hv : w.Valid fl retired)
    (hr : c ∈ retired i) (ha : c.Slot a) :
    w.heap.mem (a + 8) % 2 = 0 ∧ ∀ j, a + 16 ∉ w.live j := by
  obtain ⟨hc, ho⟩ := (hv.slab i).reclaimed c hr
  have heven := (((hv.slab i).slot c hc ho a ha).gone hr).2
  exact ⟨heven, hv.dead_not_live heven⟩

/-- No two slabs have a body in common. -/
theorem SlabWorld.Valid.live_unique {j : ι} {b : Nat} (hv : w.Valid fl retired)
    (hi : b ∈ w.live i) (hj : b ∈ w.live j) : i = j := by
  obtain ⟨c, hc, ho, a, ha, rfl⟩ := hv.slot_of_issued ((hv.slab i).live_issued b hi)
  obtain ⟨d, hd, hod, a', ha', heq⟩ := hv.slot_of_issued ((hv.slab j).live_issued _ hj)
  obtain rfl : a = a' := by omega
  exact hv.one c hc i j ho (hv.grown.slot_unique hd hc ha' ha ▸ hod)

/-- The odd generations of a chunk are its live bodies. -/
theorem SlabWorld.Valid.count_live {c : ChunkSpan} (hv : w.Valid fl retired)
    (hc : c ∈ w.heap.index.spans) (ho : (w.slabs i).Owns c) :
    liveSlots w.heap.mem c = ((w.live i).filter fun b => decide (c.Covers b)).length := by
  have hshaped := hv.grown.shaped c hc
  have hsize := hshaped.size
  have hslot := (hv.slab i).slot c hc ho
  have hperm : (((List.range c.slots).filter
      fun k => w.heap.mem (c.start + k * c.slotBytes + 8) % 2 = 1).map
      fun k => c.start + k * c.slotBytes + 16).Perm
      ((w.live i).filter fun b => decide (c.Covers b)) := by
    refine (List.perm_ext_iff_of_nodup ((List.nodup_range.filter _).map fun k l heq => ?_)
      ((hv.slab i).live_nodup.filter _)).mpr fun b => ?_
    · have hmul : k * c.slotBytes = l * c.slotBytes := by omega
      exact Nat.eq_of_mul_eq_mul_right (by omega) hmul
    · simp only [List.mem_map, List.mem_filter, List.mem_range, decide_eq_true_eq]
      constructor
      · rintro ⟨k, ⟨hk, hodd⟩, rfl⟩
        have ha : c.Slot (c.start + k * c.slotBytes) := ⟨k, hk, rfl⟩
        exact ⟨(hslot _ ha).odd.mp hodd, ha.covers hshaped (by omega)⟩
      · rintro ⟨hb, hcov⟩
        obtain ⟨d, hd, hod, a, ha, rfl⟩ := hv.slot_of_issued ((hv.slab i).live_issued b hb)
        have hdc := hv.grown.valid.sorted.unique hd hc
          (ha.covers (hv.grown.shaped d hd) (by omega)) hcov
        obtain ⟨k, hk, rfl⟩ := hdc ▸ ha
        exact ⟨k, ⟨hk, (hslot _ ⟨k, hk, rfl⟩).odd.mpr hb⟩, rfl⟩
  rw [← hperm.length_eq, List.length_map, liveSlots, List.countP_eq_length_filter]

/-- The address of a body is recognised by its place in its chunk. -/
theorem slot_of_offset {c : ChunkSpan} (hc : c.Shaped) {x : Nat} (hx : c.Covers x)
    (hoff : (x - c.start) % c.slotBytes = 16) : c.Slot (x - 16) := by
  have hsize := hc.size
  have hends := hc.ends
  obtain ⟨hlow, hhigh⟩ := hx
  have hdiv := Nat.div_add_mod (x - c.start) c.slotBytes
  rw [hoff, Nat.mul_comm] at hdiv
  refine ⟨(x - c.start) / c.slotBytes, ?_, by omega⟩
  exact Nat.lt_of_mul_lt_mul_right (a := c.slotBytes) (by omega)

theorem ptrIsSlabBody_iff (hv : w.Valid fl retired) (th : SlabThread) (p : Int) :
    ptrIsSlabBody w.heap th p = true ↔ ∃ i, ∃ b ∈ w.live i, p = b := by
  constructor
  · intro hp
    simp only [ptrIsSlabBody, chunkForValidSlot] at hp
    split at hp
    next c hchunk =>
      split at hchunk
      next => cases hchunk
      next hpos =>
        obtain ⟨hfind, hoff⟩ := Option.filter_eq_some_iff.mp hchunk
        obtain ⟨hc, hcov⟩ := (hv.grown.find_iff th _).mp hfind
        have ha := slot_of_offset (hv.grown.shaped c hc) hcov (of_decide_eq_true hoff)
        obtain ⟨i, ho⟩ := hv.owner c hc
        have hle : 16 ≤ p.toNat := by
          have hmod := Nat.mod_le (p.toNat - c.start) c.slotBytes
          have := of_decide_eq_true hoff
          omega
        have hodd := ((hv.slab i).slot c hc ho _ ha).odd
        have heq : p.toNat - 16 + 8 = p.toNat - 8 := by omega
        have heq' : p.toNat - 16 + 16 = p.toNat := by omega
        rw [heq, heq'] at hodd
        exact ⟨i, p.toNat, hodd.mp (of_decide_eq_true hp), by omega⟩
    next => cases hp
  · rintro ⟨i, b, hb, rfl⟩
    obtain ⟨c, hc, ho, a, ha, rfl⟩ := hv.slot_of_issued ((hv.slab i).live_issued b hb)
    have hodd := ((hv.slab i).slot c hc ho a ha).odd.mpr hb
    have hshaped := hv.grown.shaped c hc
    have hfind := SlabHeap.find_slot hv.grown hc ha th
    obtain ⟨k, hk, rfl⟩ := ha
    have haligned : (c.start + k * c.slotBytes + 16) % 8 = 0 := by
      have := hshaped.aligned
      have := Nat.mul_mod k c.slotBytes 8
      rw [hshaped.slotAligned, Nat.mul_zero, Nat.zero_mod] at this
      omega
    have hoff : (c.start + k * c.slotBytes + 16 - c.start) % c.slotBytes = 16 := by
      have hsize := hshaped.size
      rw [Nat.add_assoc, Nat.add_sub_cancel_left, Nat.add_comm, Nat.add_mul_mod_self_right]
      exact Nat.mod_eq_of_lt (by omega)
    have hvalid : chunkForValidSlot w.heap th
        ((c.start + k * c.slotBytes + 16 : Nat) : Int) = some c := by
      unfold chunkForValidSlot
      rw [if_neg (by omega), Int.toNat_natCast, hfind]
      exact Option.filter_eq_some_iff.mpr ⟨rfl, decide_eq_true hoff⟩
    have hword : c.start + k * c.slotBytes + 16 - 8 = c.start + k * c.slotBytes + 8 := by omega
    simp only [ptrIsSlabBody, hvalid, Int.toNat_natCast, hword, hodd, decide_true]

variable [DecidableEq ι]

theorem alloc_step {chunk counter : Nat} (hv : w.Valid fl retired)
    (hstep : slabStep page w (.alloc i th chunk counter) = some w') :
    ∃ fl' b, WorldStep w fl retired w' fl' retired ∧ w'.live = Function.update w.live i (b :: w.live i) ∧
      Handed w.heap w'.heap b := by
  simp only [slabStep] at hstep
  split at hstep
  next => cases hstep
  next hguard =>
    cases hstep
    obtain ⟨fl', hvalid, heffect, hgen, hhanded⟩ := alloc_valid hv.grown (hv.slab i)
      (fun hgrows => by_contra fun hf => hguard ⟨hgrows, hf⟩) th
    have hworld := WorldStep.of_slab hv hvalid heffect (fun _ hc => hc) hgen
    rw [Function.update_eq_self] at hworld
    exact ⟨_, _, hworld, rfl, hhanded⟩

theorem free_dead_step {b : Nat} (hv : w.Valid fl retired) (hb : b ∈ w.issued i)
    (hdead : b ∉ w.live i) : slabStep page w (.free i th b) = some w := by
  obtain ⟨c, hc, ho, a, ha, rfl⟩ := hv.slot_of_issued hb
  have heven : w.heap.mem (a + 8) % 2 = 0 := by
    have hodd := ((hv.slab i).slot c hc ho a ha).odd
    by_contra hne
    exact hdead (hodd.mp (by omega))
  simp only [slabStep, if_pos hb, free_dead page heven, Option.map_some, SlabWorld.afterFree,
    Function.update_eq_self]
  rfl

theorem free_live_step {b : Nat} (hv : w.Valid fl retired) (hb : b ∈ w.live i) :
    ∃ w' fl' retired', slabStep page w (.free i th b) = some w' ∧
      WorldStep w fl retired w' fl' retired' ∧
      w'.live = Function.update w.live i ((w.live i).erase b) ∧
      (w'.slabs i).bump = (w.slabs i).bump ∧ (w'.slabs i).bumpEnd = (w.slabs i).bumpEnd ∧
      (∀ e ∈ (b - 16) :: fl i, e ∈ fl' i ∨ ∃ d ∈ retired' i, d.Slot e) ∧
      (w'.gen b = (w.gen b + 1) % 2 ^ 64 ∨
        (w'.gen b = 0 ∧ ∃ d ∈ retired' i, d.Slot (b - 16))) := by
  have hissued := (hv.slab i).live_issued b hb
  obtain ⟨c, hc, ho, a, ha, rfl⟩ := hv.slot_of_issued hissued
  have hodd := ((hv.slab i).slot c hc ho a ha).odd.mpr hb
  obtain ⟨sl', h', fl', retired', hrun, hvalid, heffect, hrec⟩ :=
    free_valid page hv.grown (hv.slab i) hc ho ha hodd th
  have hgen := free_genStep hv.grown hc ha th hrec
  have hworld := WorldStep.of_slab hv hvalid heffect hrec.retired hgen
  rw [Function.update_eq_self] at hworld
  refine ⟨_, _, _, ?_, hworld, rfl, ?_, ?_, ?_, ?_⟩
  · simp only [slabStep, if_pos hissued, hrun, Option.map_some, SlabWorld.afterFree, if_true]
  · simpa using hrec.front.1
  · simpa using hrec.front.2
  · simpa using hrec.freed
  · have hc' : c ∈ (freedHeap w.heap (w.slabs i) c a th).index.spans :=
      (hv.grown.find_spans th (a + 16)).symm ▸ hc
    rcases hrec.gen c hc' a ha with heq | ⟨hz, hr⟩
    · exact .inl (heq.trans (freed_gen ..))
    · exact .inr ⟨hz, c, by simpa using hr, by simpa using ha⟩

theorem world_step (hv : w.Valid fl retired) {op : SlabOp ι} (hstep : slabStep page w op = some w') :
    ∃ fl' retired', WorldStep w fl retired w' fl' retired' := by
  cases op with
  | alloc i th chunk counter =>
    obtain ⟨fl', _, hworld, _⟩ := alloc_step hv hstep
    exact ⟨fl', retired, hworld⟩
  | free i th b =>
    have hb : b ∈ w.issued i := by
      by_contra hb
      simp [slabStep, hb] at hstep
    by_cases hlive : b ∈ w.live i
    · obtain ⟨w'', fl', retired', hrun, hworld, _⟩ := @free_live_step _ _ _ _ page _ th _ b hv hlive
      cases hrun.symm.trans hstep
      exact ⟨fl', retired', hworld⟩
    · cases (free_dead_step hv hb hlive).symm.trans hstep
      exact ⟨fl, retired, hv, fun _ hc => hc, fun _ _ hc => hc, fun _ _ _ _ _ _ => .inl rfl⟩
  | store i b addr v =>
    simp only [slabStep] at hstep
    split at hstep
    next hguard =>
      cases hstep
      exact ⟨fl, retired, store_step hv hguard.1 hguard.2⟩
    next => cases hstep

/-- No generation word is at the largest value a `u64` has. -/
def GenBelow (w : SlabWorld ι) (_ : SlabOp ι) : Prop :=
  ∀ c ∈ w.heap.index.spans, ∀ a, c.Slot a → w.heap.mem (a + 8) + 1 < 2 ^ 64

/-- The slot `a` of `c` has got past the generation `g`, or `c` has been reclaimed. -/
def Beyond (c : ChunkSpan) (a g : Nat) (w : SlabWorld ι) : Prop :=
  ∃ fl retired, w.Valid fl retired ∧ c ∈ w.heap.index.spans ∧
    (g < w.heap.mem (a + 8) ∨ ∃ i, c ∈ retired i)

theorem beyond_step {c : ChunkSpan} {a g : Nat} (ha : c.Slot a) {op : SlabOp ι}
    (h : Beyond c a g w) (hbelow : GenBelow w op) (hstep : slabStep page w op = some w') :
    Beyond c a g w' := by
  obtain ⟨fl, retired, hv, hc, hpast⟩ := h
  obtain ⟨fl', retired', hworld⟩ := world_step hv hstep
  refine ⟨fl', retired', hworld.valid, hworld.kept c hc, ?_⟩
  rcases hpast with hlt | ⟨j, hr⟩
  · obtain ⟨j, ho⟩ := hv.owner c hc
    have hmax := hbelow c hc a ha
    rcases hworld.gen j c hc ho a ha with heq | heq | hr
    · exact .inl (heq ▸ hlt)
    · rw [Nat.mod_eq_of_lt hmax] at heq
      exact .inl (by omega)
    · exact .inr ⟨j, hr⟩
  · exact .inr ⟨j, hworld.retired j c hr⟩

/-- After the free of a body its slot never has the generation again that it had before. -/
theorem gen_never_again {b : Nat} (hv : w.Valid fl retired) (hb : b ∈ w.live i) {w₁ w₂ : SlabWorld ι}
    (hbelow : GenBelow w (.free i th b)) (hstep : slabStep page w (.free i th b) = some w₁)
    (hrun : Reachable (slabStep page) GenBelow w₁ w₂) : w₂.gen b ≠ w.gen b := by
  obtain ⟨c, hc, ho, a, ha, rfl⟩ := hv.slot_of_issued ((hv.slab i).live_issued b hb)
  have hodd := ((hv.slab i).slot c hc ho a ha).odd.mpr hb
  have hmax := hbelow c hc a ha
  obtain ⟨w', fl', retired', hrun', hworld, _, _, _, _, hgen⟩ :=
    @free_live_step _ _ _ _ page i th _ (a + 16) hv hb
  cases hrun'.symm.trans hstep
  have hstart : Beyond c a (w.gen (a + 16)) w₁ := by
    refine ⟨fl', retired', hworld.valid, hworld.kept c hc, ?_⟩
    rcases hgen with heq | ⟨_, d, hr, hd⟩
    · refine .inl ?_
      have heq' : w₁.heap.mem (a + 8) = (w.heap.mem (a + 8) + 1) % 2 ^ 64 := heq
      rw [Nat.mod_eq_of_lt hmax] at heq'
      exact Nat.lt_of_lt_of_eq (Nat.lt_succ_self _) heq'.symm
    · obtain ⟨hd', _⟩ := (hworld.valid.slab i).reclaimed d hr
      have hdc := hworld.valid.grown.slot_unique hd' (hworld.kept c hc) hd ha
      exact .inr ⟨i, hdc ▸ hr⟩
  obtain ⟨fl₂, retired₂, hv₂, hc₂, hpast⟩ :=
    hrun.invariant hstart fun _ _ _ h hok hnext => beyond_step ha h hok hnext
  rcases hpast with hlt | ⟨j, hr⟩
  · exact Nat.ne_of_gt hlt
  · have heven := (hv₂.retired_dead hr ha).1
    intro heq
    have heq' : w₂.heap.mem (a + 8) = w.heap.mem (a + 8) := heq
    omega

/-- The slots of a reclaimed chunk are never in use again. -/
theorem retired_never_live {c : ChunkSpan} {a : Nat} {w₂ : SlabWorld ι} (hv : w.Valid fl retired)
    (hr : c ∈ retired i) (ha : c.Slot a)
    (hrun : Reachable (slabStep page) (fun _ _ => True) w w₂) (j : ι) : a + 16 ∉ w₂.live j := by
  have hstart : ∃ fl retired, w.Valid fl retired ∧ c ∈ retired i := ⟨fl, retired, hv, hr⟩
  obtain ⟨fl₂, retired₂, hv₂, hr₂⟩ :=
      hrun.invariant (P := fun w => ∃ fl retired, w.Valid fl retired ∧ c ∈ retired i) hstart
        fun s op s' h _ hnext => by
    obtain ⟨fl, retired, hv, hr⟩ := h
    obtain ⟨fl', retired', hworld⟩ := world_step hv hnext
    exact ⟨fl', retired', hworld.valid, hworld.retired i c hr⟩
  exact (hv₂.retired_dead hr₂ ha).2 j

/-- What the slabs promise in a state and in the calls and runs from there. -/
structure SlabWorld.Correct (page : Nat) (w : SlabWorld ι) : Prop where
  distinct : ∀ i, (w.live i).Nodup
  inside : ∀ i, ∀ b ∈ w.live i, ∃ c ∈ w.heap.index.spans,
    c.start + 16 ≤ b ∧ b - 16 + (w.slabs i).slotBytes ≤ c.end
  apart : ∀ i j, ∀ b ∈ w.live i, ∀ b' ∈ w.live j, (i = j ∧ b = b') ∨
    b + ((w.slabs i).slotBytes - 16) ≤ b' ∨ b' + ((w.slabs j).slotBytes - 16) ≤ b
  odd : ∀ i, ∀ b ∈ w.issued i, w.gen b % 2 = 1 ↔ b ∈ w.live i
  freeList : ∀ i, ∃ fl, Linked.Links w.heap.mem 16 (w.slabs i).freeHead fl ∧ fl.Nodup ∧
    ∀ a ∈ fl, w.gen (a + 16) % 2 = 0 ∧ ∀ j, a + 16 ∉ w.live j
  counts : ∀ i, ∀ c ∈ w.heap.index.spans, (w.slabs i).Owns c →
    w.heap.liveCounts c.liveCount = ((w.live i).filter fun b => decide (c.Covers b)).length
  classified : ∀ th (p : Int), ptrIsSlabBody w.heap th p = true ↔ ∃ i, ∃ b ∈ w.live i, p = b
  /-- `alloc` hands out a body that is not in use, with a generation one higher. -/
  alloc : ∀ i th chunk counter w', slabStep page w (.alloc i th chunk counter) = some w' →
    ∃ b, (∀ j, b ∉ w.live j) ∧ w'.live = Function.update w.live i (b :: w.live i) ∧
      (((∀ c ∈ w.heap.index.spans, ¬ c.Covers b) ∧ w'.gen b = 1) ∨
        w'.gen b = (w.gen b + 1) % 2 ^ 64)
  /-- `free` ends; it does nothing to a body that is free. -/
  freeDead : ∀ i th, ∀ b ∈ w.issued i, b ∉ w.live i → slabStep page w (.free i th b) = some w
  /-- The free of a live body makes its generation one higher, or takes the slot out of use; the
  slots that it takes off the free list are never handed out again, and those that were not
  handed out yet still will be. -/
  freeLive : ∀ i th, ∀ b ∈ w.live i, ∃ w', slabStep page w (.free i th b) = some w' ∧
    w'.live = Function.update w.live i ((w.live i).erase b) ∧
    (w'.slabs i).bump = (w.slabs i).bump ∧ (w'.slabs i).bumpEnd = (w.slabs i).bumpEnd ∧
    (w'.gen b = (w.gen b + 1) % 2 ^ 64 ∨ (w'.gen b = 0 ∧
      ∀ w₂, Reachable (slabStep page) (fun _ _ => True) w' w₂ → ∀ j, b ∉ w₂.live j)) ∧
    ∀ fl fl', Linked.Links w.heap.mem 16 (w.slabs i).freeHead fl →
      Linked.Links w'.heap.mem 16 (w'.slabs i).freeHead fl' →
      ∀ a ∈ (b - 16) :: fl, a ∉ fl' →
        ∀ w₂, Reachable (slabStep page) (fun _ _ => True) w' w₂ → ∀ j, a + 16 ∉ w₂.live j
  /-- A generation that was read while the slot was live is not read again after its free. -/
  stale : ∀ i th, ∀ b ∈ w.live i, ∀ w₁ w₂, GenBelow w (.free i th b) →
    slabStep page w (.free i th b) = some w₁ → Reachable (slabStep page) GenBelow w₁ w₂ →
      w₂.gen b ≠ w.gen b

theorem SlabWorld.Valid.correct (hv : w.Valid fl retired) : w.Correct page where
  distinct i := (hv.slab i).live_nodup
  inside i b hb := by
    obtain ⟨c, hc, ho, a, ha, rfl⟩ := hv.slot_of_issued ((hv.slab i).live_issued b hb)
    have hle := ha.le
    have hend := ha.end_le (hv.grown.shaped c hc)
    have hbytes := ho.2.1
    exact ⟨c, hc, by omega, by omega⟩
  apart i j b hb b' hb' := by
    obtain ⟨c, hc, ho, a, ha, rfl⟩ := hv.slot_of_issued ((hv.slab i).live_issued b hb)
    obtain ⟨d, hd, hod, a', ha', rfl⟩ := hv.slot_of_issued ((hv.slab j).live_issued b' hb')
    have hsize := (hv.slab i).size
    have hsize' := (hv.slab j).size
    have hbytes := ho.2.1
    have hbytes' := hod.2.1
    rcases hv.grown.slots_apart hc hd ha ha' with rfl | hlt | hlt
    · have hdc := hv.grown.slot_unique hc hd ha ha'
      exact .inl ⟨hv.one d hd i j (hdc ▸ ho) hod, rfl⟩
    · exact .inr (.inl (by omega))
    · exact .inr (.inr (by omega))
  odd i b hb := by
    obtain ⟨c, hc, ho, a, ha, rfl⟩ := hv.slot_of_issued hb
    exact ((hv.slab i).slot c hc ho a ha).odd
  freeList i := by
    refine ⟨fl i, (hv.slab i).links, (hv.slab i).nodup, fun a ha => ?_⟩
    obtain ⟨_, heven, _⟩ := (hv.slab i).freed a ha
    exact ⟨heven, hv.dead_not_live heven⟩
  counts i c hc ho := ((hv.slab i).counts c hc ho).trans (hv.count_live hc ho)
  classified := ptrIsSlabBody_iff hv
  alloc i th chunk counter w' hstep := by
    obtain ⟨fl', b, hworld, hlive, hhanded⟩ := alloc_step hv hstep
    have hi : b ∈ w'.live i := by simp [hlive]
    refine ⟨b, fun j hj => ?_, hlive, hhanded.imp id And.right⟩
    rcases eq_or_ne j i with rfl | hne
    · have hnodup := (hworld.valid.slab j).live_nodup
      rw [hlive, Function.update_self] at hnodup
      exact (List.nodup_cons.mp hnodup).1 hj
    · have hj' : b ∈ w'.live j := by rwa [hlive, Function.update_of_ne hne]
      exact hne (hworld.valid.live_unique hj' hi)
  freeDead i th b hb hdead := free_dead_step hv hb hdead
  freeLive i th b hb := by
    obtain ⟨w', fl', retired', hrun, hworld, hlive, hbump, hend, hfreed, hgen⟩ :=
      @free_live_step _ _ _ _ page i th _ b hv hb
    refine ⟨w', hrun, hlive, hbump, hend, ?_, ?_⟩
    · rcases hgen with heq | ⟨hz, d, hr, hd⟩
      · exact .inl heq
      · refine .inr ⟨hz, fun w₂ hlater j => ?_⟩
        obtain ⟨_, _, _, a, _, rfl⟩ := hv.slot_of_issued ((hv.slab i).live_issued b hb)
        exact retired_never_live hworld.valid hr hd hlater j
    · intro l l' hl hl' a ha hna w₂ hlater j
      rw [hl.unique (hv.slab i).links] at ha
      rw [hl'.unique (hworld.valid.slab i).links] at hna
      rcases hfreed a ha with hin | ⟨d, hr, hd⟩
      · exact absurd hin hna
      · exact retired_never_live hworld.valid hr hd hlater j
  stale i th b hb w₁ w₂ hbelow hstep hrun := gen_never_again hv hb hbelow hstep hrun

theorem gen_slab_correct {bodyBytes : ι → Nat} (hbody : ∀ i, 0 < bodyBytes i)
    (isGlobal : ι → Bool) (mem : Memory) (page : Nat)
    (h : Reachable (slabStep page) (fun _ _ => True) (.empty bodyBytes isGlobal mem) w) :
    w.Correct page := by
  have hstart : ∃ fl retired, (SlabWorld.empty bodyBytes isGlobal mem).Valid fl retired :=
    ⟨_, _, world_empty hbody isGlobal mem⟩
  obtain ⟨fl, retired, hv⟩ :=
      h.invariant (P := fun w => ∃ fl retired, w.Valid fl retired) hstart fun s op s' hs _ hnext => by
    obtain ⟨fl, retired, hv⟩ := hs
    obtain ⟨fl', retired', hworld⟩ := world_step hv hnext
    exact ⟨fl', retired', hworld.valid⟩
  exact hv.correct

/-- One slab with two slots in a chunk. -/
def twoSlots : SlabWorld Unit := .empty (fun _ => 32752) (fun _ => false) (fun _ => 0)

/-- Both slots of a chunk are given out and freed. -/
def reclaimRun : List (SlabOp Unit) :=
  [.alloc () 0 65552 8, .alloc () 0 0 0, .free () 0 65568]

theorem gen_slab_correct_two : ∃ w, Interleaving.schedule (slabStep 4096) (fun _ _ => true) twoSlots
    reclaimRun = some w ∧ w.live () = [98336] ∧ w.Correct 4096 := by
  obtain ⟨w, hw, hlive⟩ : ∃ w, Interleaving.schedule (slabStep 4096) (fun _ _ => true) twoSlots
      reclaimRun = some w ∧ w.live () = [98336] := ⟨_, rfl, rfl⟩
  have hbody : ∀ _ : Unit, 0 < 32752 := fun _ => by decide
  exact ⟨w, hw, hlive, gen_slab_correct hbody (fun _ => false) (fun _ => 0) 4096
    (Interleaving.reachable_of_schedule (fun _ _ _ => trivial) .start hw)⟩

theorem gen_reset : ¬ ∀ (w w' : SlabWorld Unit) (b : Nat),
    Reachable (slabStep 4096) (fun _ _ => True) twoSlots w → b ∈ w.live () →
      slabStep 4096 w (.free () 0 b) = some w' → w.gen b < w'.gen b := by
  intro h
  have hrun : (Interleaving.schedule (slabStep 4096) (fun _ _ => true) twoSlots reclaimRun).bind
      (fun w => (slabStep 4096 w (.free () 0 98336)).map fun w' =>
        (w.live (), w.gen 98336, w'.gen 98336)) = some ([98336], 1, 0) := by decide +kernel
  obtain ⟨w, hw, hmap⟩ := Option.bind_eq_some_iff.mp hrun
  obtain ⟨w', hstep, heq⟩ := Option.map_eq_some_iff.mp hmap
  obtain ⟨hlive, hgen, hgen'⟩ : w.live () = [98336] ∧ w.gen 98336 = 1 ∧ w'.gen 98336 = 0 := by
    simpa using heq
  have hlt := h w w' 98336 (Interleaving.reachable_of_schedule (fun _ _ _ => trivial) .start hw)
    (by simp [hlive]) hstep
  omega

end Olive
