import Mathlib.Data.List.TakeWhile
import Mathlib.Data.List.InsertIdx
import Olive.ChunkTable

/-! Which chunk a lookup finds. -/

namespace Olive

variable {s : ChunkIndex} {c : ChunkSpan} {chunks : List ChunkSpan} {th : SlabThread} {addr : Nat}

theorem ChunkSpan.covers_iff : c.Covers addr ↔ c.start ≤ addr ∧ addr < c.end := Iff.rfl

/-- The chunks of a table: in order of their addresses, and none of them empty. -/
def Sorted (chunks : List ChunkSpan) : Prop :=
  chunks.Pairwise (fun c d => c.end ≤ d.start) ∧ ∀ c ∈ chunks, c.start < c.end

theorem Sorted.sublist {chunks' : List ChunkSpan} (h : Sorted chunks)
    (hs : List.Sublist chunks' chunks) : Sorted chunks' :=
  ⟨h.1.sublist hs, fun c hc => h.2 c (hs.subset hc)⟩

theorem searchTable_eq : searchTable chunks addr =
    (chunks.takeWhile (·.start ≤ addr)).getLast?.filter (·.Covers addr) := by
  have hpre : chunks.takeWhile (·.start ≤ addr) ++ chunks.dropWhile (·.start ≤ addr) = chunks :=
    List.takeWhile_append_dropWhile
  unfold searchTable partitionPoint
  generalize chunks.takeWhile (·.start ≤ addr) = pre at hpre ⊢
  dsimp only
  split
  next hz => rw [List.length_eq_zero_iff.mp hz]; rfl
  next hz => rw [← hpre, List.getElem?_append_left (by omega), List.getLast?_eq_getElem?]

theorem takeWhile_at_covering {before after : List ChunkSpan}
    (h : Sorted (before ++ c :: after)) (hc : c.Covers addr) :
    (before ++ c :: after).takeWhile (·.start ≤ addr) = before ++ [c] := by
  obtain ⟨hsorted, hne⟩ := h
  obtain ⟨_, hafter, hbefore⟩ := List.pairwise_append.mp hsorted
  have hall : ∀ d ∈ before, decide (d.start ≤ addr) = true := by
    intro d hd
    have hde := hbefore d hd c (by simp)
    have hds := hne d (by simp [hd])
    exact decide_eq_true (by have := hc.1; omega)
  rw [List.takeWhile_append_of_pos hall, List.takeWhile_cons_of_pos (by simpa using hc.1)]
  cases after with
  | nil => rfl
  | cons d after =>
    have hd := (List.pairwise_cons.mp hafter).1 d (by simp)
    have hlt := hc.2
    rw [List.takeWhile_cons_of_neg (by simp; omega)]

theorem searchTable_eq_some_iff (h : Sorted chunks) :
    searchTable chunks addr = some c ↔ c ∈ chunks ∧ c.Covers addr := by
  rw [searchTable_eq, Option.filter_eq_some_iff]
  constructor
  · rintro ⟨hlast, hc⟩
    have hmem := List.mem_of_getLast? hlast
    exact ⟨List.takeWhile_subset _ hmem, of_decide_eq_true hc⟩
  · rintro ⟨hmem, hc⟩
    obtain ⟨before, after, rfl⟩ := List.append_of_mem hmem
    rw [takeWhile_at_covering h hc]
    exact ⟨by simp, decide_eq_true hc⟩

theorem Sorted.unique {d : ChunkSpan} (h : Sorted chunks) (hc : c ∈ chunks) (hd : d ∈ chunks)
    (hca : c.Covers addr) (hda : d.Covers addr) : c = d :=
  Option.some.inj (((searchTable_eq_some_iff h).mpr ⟨hc, hca⟩).symm.trans
    ((searchTable_eq_some_iff h).mpr ⟨hd, hda⟩))

theorem insertIdx_partitionPoint (p : ChunkSpan → Bool) :
    chunks.insertIdx (partitionPoint p chunks) c = chunks.takeWhile p ++ c :: chunks.dropWhile p := by
  have hpre : chunks.takeWhile p ++ chunks.dropWhile p = chunks := List.takeWhile_append_dropWhile
  unfold partitionPoint
  generalize chunks.takeWhile p = pre at hpre ⊢
  generalize chunks.dropWhile p = rest at hpre ⊢
  subst hpre
  induction pre with
  | nil => rfl
  | cons d pre ih => exact congrArg (d :: ·) ih

theorem start_le_of_mem_dropWhile {d : ChunkSpan} {n : Nat} (h : Sorted chunks)
    (hd : d ∈ chunks.dropWhile (·.start < n)) : n ≤ d.start := by
  have hrest : Sorted (chunks.dropWhile (·.start < n)) := h.sublist (List.dropWhile_sublist _)
  cases heq : chunks.dropWhile (·.start < n) with
  | nil => simp [heq] at hd
  | cons e rest =>
    have he : n ≤ e.start := by
      have hnot := List.head_dropWhile_not (fun e : ChunkSpan => decide (e.start < n))
        (l := chunks) (by simp [heq])
      simpa [heq] using hnot
    rw [heq] at hd hrest
    rcases List.mem_cons.mp hd with rfl | hd
    · exact he
    · have hde := (List.pairwise_cons.mp hrest.1).1 d hd
      have hne := hrest.2 e (by simp)
      omega

theorem sorted_insert (h : Sorted chunks) (hc : c.start < c.end)
    (hdisj : ∀ d ∈ chunks, d.end ≤ c.start ∨ c.end ≤ d.start) :
    Sorted (chunks.insertIdx (partitionPoint (·.start < c.start) chunks) c) := by
  rw [insertIdx_partitionPoint]
  have hbefore : ∀ d ∈ chunks.takeWhile (·.start < c.start), d.end ≤ c.start := by
    intro d hd
    have hlt : d.start < c.start := by simpa using List.mem_takeWhile_imp hd
    rcases hdisj d (List.takeWhile_subset _ hd) with hle | hle <;> omega
  have hafter : ∀ d ∈ chunks.dropWhile (·.start < c.start), c.end ≤ d.start := by
    intro d hd
    have hle := start_le_of_mem_dropWhile h hd
    have hmem := (List.dropWhile_sublist _).subset hd
    have hne := h.2 d hmem
    rcases hdisj d hmem with hle | hle <;> omega
  refine ⟨List.pairwise_append.mpr ⟨(h.sublist (List.takeWhile_sublist _)).1,
    List.pairwise_cons.mpr ⟨hafter, (h.sublist (List.dropWhile_sublist _)).1⟩, ?_⟩, ?_⟩
  · intro d hd e he
    have hde := hbefore d hd
    rcases List.mem_cons.mp he with rfl | he
    · exact hde
    · have hce := hafter e he
      omega
  · intro d hd
    rcases List.mem_append.mp hd with hd | hd
    · exact h.2 d (List.takeWhile_subset _ hd)
    · rcases List.mem_cons.mp hd with rfl | hd
      · exact hc
      · exact h.2 d ((List.dropWhile_sublist _).subset hd)

theorem mem_spans_register {d : ChunkSpan} : d ∈ (registerChunk s c).spans ↔ d = c ∨ d ∈ s.spans := by
  have hspans : (registerChunk s c).spans =
      s.spans.insertIdx (partitionPoint (·.start < c.start) s.spans) c := rfl
  rw [hspans, insertIdx_partitionPoint]
  conv_rhs => rw [← List.takeWhile_append_dropWhile (p := (·.start < c.start)) (l := s.spans)]
  simp only [List.mem_append, List.mem_cons]
  tauto

/-- What the calls keep. -/
structure ChunkIndex.Valid (s : ChunkIndex) : Prop where
  sorted : Sorted s.spans
  ranged : ∀ c ∈ s.spans, s.spanMin ≤ c.start ∧ c.end ≤ s.spanMax
  stamped : ∀ th, (s.lastChunks th).epoch ≤ s.epoch
  cached : ∀ th, (s.lastChunks th).epoch = s.epoch →
    ∀ i c, (s.lastChunks th).ways i = some c → c ∈ s.spans

theorem valid_empty : ChunkIndex.empty.Valid :=
  ⟨⟨.nil, by simp [ChunkIndex.empty, ChunkIndex.spans]⟩,
    by simp [ChunkIndex.empty, ChunkIndex.spans], fun _ => Nat.le_refl 0,
    by simp [ChunkIndex.empty]⟩

theorem valid_register (h : s.Valid) (hc : s.Disjoint c) : (registerChunk s c).Valid where
  sorted := sorted_insert h.sorted hc.1 hc.2
  ranged := by
    intro d hd
    simp only [registerChunk]
    rcases mem_spans_register.mp hd with rfl | hd
    · omega
    · have := h.ranged d hd
      omega
  stamped th := Nat.le_succ_of_le (h.stamped th)
  cached th he := absurd he (Nat.ne_of_lt (Nat.lt_succ_of_le (h.stamped th)))

theorem valid_unregister (h : s.Valid) (start : Nat) : (unregisterChunk s start).Valid := by
  unfold unregisterChunk
  split
  next => exact h
  next cur hcur =>
    have hspans : s.spans = cur := by simp [ChunkIndex.spans, hcur]
    have hsub : List.Sublist (cur.eraseP (·.start = start)) s.spans := hspans ▸ List.eraseP_sublist
    exact ⟨h.sorted.sublist hsub, fun c hc => h.ranged c (hsub.subset hc),
      fun th => Nat.le_succ_of_le (h.stamped th),
      fun th he => absurd he (Nat.ne_of_lt (Nat.lt_succ_of_le (h.stamped th)))⟩

/-- A cache is written with spans of the table or not at all. -/
theorem valid_setCache (h : s.Valid) {cache : LastChunks} (he : cache.epoch ≤ s.epoch)
    (hways : ∀ i c, cache.ways i = some c → c ∈ s.spans) : (s.setCache th cache).Valid where
  sorted := h.sorted
  ranged := h.ranged
  stamped th' := by
    rcases eq_or_ne th' th with rfl | hne
    · simpa using he
    · simpa [hne] using h.stamped th'
  cached th' := by
    rcases eq_or_ne th' th with rfl | hne
    · rw [setCache_self]
      exact fun _ => hways
    · rw [setCache_of_ne _ _ hne]
      exact h.cached th'

theorem clearStale_cases (s : ChunkIndex) (th : SlabThread) :
    clearStale s th = s ∨ clearStale s th = s.setCache th ⟨fun _ => none, false, s.epoch⟩ := by
  simp only [clearStale]
  split
  next => exact .inl rfl
  next =>
    split
    next => exact .inr rfl
    next => exact .inl rfl

@[simp] theorem clearStale_spans : (clearStale s th).spans = s.spans := by
  rcases clearStale_cases s th with h | h <;> rw [h]
  rfl

@[simp] theorem clearStale_epoch : (clearStale s th).epoch = s.epoch := by
  rcases clearStale_cases s th with h | h <;> rw [h]
  rfl

theorem valid_clearStale (h : s.Valid) : (clearStale s th).Valid := by
  rcases clearStale_cases s th with hs | hs <;> rw [hs]
  · exact h
  · exact valid_setCache h (Nat.le_refl _) (by simp)

theorem LastChunks.find_eq_some {cache : LastChunks} (h : cache.find addr = some c) :
    (∃ i, cache.ways i = some c) ∧ c.Covers addr := by
  have hmem := List.mem_of_find?_eq_some h
  have hc : c.Covers addr := of_decide_eq_true (List.find?_some (p := fun c : ChunkSpan => decide (c.Covers addr)) h)
  refine ⟨?_, hc⟩
  obtain ⟨w, hw, rfl⟩ := List.mem_filterMap.mp hmem
  rcases List.mem_cons.mp hw with hw | hw
  · exact ⟨false, hw.symm⟩
  · exact ⟨true, (List.mem_singleton.mp hw).symm⟩

/-- What a lookup can do: answer from the cache, answer from the table, or find nothing. -/
theorem findChunkForAddr_cases (h : s.Valid) (th : SlabThread) (addr : Nat) :
    (∃ c i, epochEq (s.lastChunks th).epoch s.epoch = true ∧ (s.lastChunks th).ways i = some c ∧
      c.Covers addr ∧ findChunkForAddr s th addr = (some c, s)) ∨
    (∃ c ∈ s.spans, c.Covers addr ∧ findChunkForAddr s th addr =
      (some c, refill (clearStale s th) th (s.lastChunks th) c)) ∨
    ((∀ c ∈ s.spans, ¬ c.Covers addr) ∧
      ((findChunkForAddr s th addr) = (none, s) ∨
        findChunkForAddr s th addr = (none, clearStale s th))) := by
  simp only [findChunkForAddr]
  split
  next hout =>
    refine .inr (.inr ⟨fun c hc hcov => ?_, .inl rfl⟩)
    obtain ⟨hmin, hmax⟩ := h.ranged c hc
    obtain ⟨hle, hlt⟩ := hcov
    omega
  next =>
    split
    next c hcache =>
      have hep : epochEq (s.lastChunks th).epoch s.epoch = true := by
        by_contra hne
        simp [hne] at hcache
      rw [if_pos hep] at hcache
      obtain ⟨⟨i, hi⟩, hcov⟩ := LastChunks.find_eq_some hcache
      exact .inl ⟨c, i, hep, hi, hcov, rfl⟩
    next =>
      have hsorted := h.sorted
      cases htable : s.table with
      | none => exact .inr (.inr ⟨by simp [ChunkIndex.spans, htable], .inr rfl⟩)
      | some chunks =>
        have hspans : s.spans = chunks := by simp [ChunkIndex.spans, htable]
        rw [hspans] at hsorted ⊢
        dsimp only
        cases hsearch : searchTable chunks addr with
        | none =>
          refine .inr (.inr ⟨fun c hc hcov => ?_, .inr rfl⟩)
          have := (searchTable_eq_some_iff hsorted).mpr ⟨hc, hcov⟩
          simp [hsearch] at this
        | some c =>
          obtain ⟨hc, hcov⟩ := (searchTable_eq_some_iff hsorted).mp hsearch
          exact .inr (.inl ⟨c, hc, hcov, rfl⟩)

/-- Under the epoch of the table, the cache holds registered chunks. -/
theorem registered_of_cached (h : s.Valid) (hs : CacheSound s (.find th addr)) {i : Bool}
    (hep : epochEq (s.lastChunks th).epoch s.epoch = true)
    (hi : (s.lastChunks th).ways i = some c) : c ∈ s.spans := by
  simp only [CacheSound, hep, if_true] at hs
  rcases eq_or_ne (s.lastChunks th).epoch s.epoch with he | hne
  · exact h.cached th he i c hi
  · exact hs hne i c hi

theorem lookupExact (h : s.Valid) (hs : CacheSound s (.find th addr)) : LookupExact s th addr := by
  intro d
  have hone : ∀ c, c ∈ s.spans → c.Covers addr → (some c = some d ↔ d ∈ s.spans ∧ d.Covers addr) := by
    intro c hc hcov
    constructor
    · intro he
      cases he
      exact ⟨hc, hcov⟩
    · rintro ⟨hd, hdcov⟩
      rw [h.sorted.unique hc hd hcov hdcov]
  rcases findChunkForAddr_cases h th addr with
    ⟨c, i, hep, hi, hcov, heq⟩ | ⟨c, hc, hcov, heq⟩ | ⟨hnone, heq⟩
  · rw [heq]
    exact hone c (registered_of_cached h hs hep hi) hcov
  · rw [heq]
    exact hone c hc hcov
  · have hfst : (findChunkForAddr s th addr).1 = none := by rcases heq with heq | heq <;> rw [heq]
    rw [hfst]
    exact ⟨fun he => by simp at he, fun hd => absurd hd.2 (hnone d hd.1)⟩

theorem valid_refill (h : s.Valid) (hc : c ∈ s.spans) (hcov : c.Covers addr)
    (hs : CacheSound s (.find th addr)) :
    (refill (clearStale s th) th (s.lastChunks th) c).Valid := by
  refine valid_setCache (valid_clearStale h) (Nat.le_refl _) ?_
  intro i d hd
  rw [clearStale_spans]
  dsimp only at hd
  by_cases hi : i = (s.lastChunks th).nextSlot
  · subst hi
    rw [Function.update_self] at hd
    exact Option.some.inj hd ▸ hc
  · rw [Function.update_of_ne hi] at hd
    by_cases hep : epochEq (s.lastChunks th).epoch s.epoch = true
    · exact registered_of_cached h hs hep hd
    · -- the way that is not filled comes from the cache of an earlier epoch
      have hother : i = !(s.lastChunks th).nextSlot := by
        cases i <;> cases hn : (s.lastChunks th).nextSlot <;> simp_all
      rw [hother] at hd
      simp only [CacheSound, hep, if_false, Bool.false_eq_true] at hs
      exact hs ⟨c, hc, hcov⟩ d hd

theorem valid_step {a : ChunkOp} {s' : ChunkIndex} (h : s.Valid) (hs : CacheSound s a)
    (hstep : chunkStep s a = some s') : s'.Valid := by
  cases a with
  | register c =>
    simp only [chunkStep] at hstep
    split at hstep
    next hdisj =>
      cases hstep
      exact valid_register h hdisj
    next => cases hstep
  | unregister start =>
    cases hstep
    exact valid_unregister h start
  | find th addr =>
    cases hstep
    rcases findChunkForAddr_cases h th addr with
      ⟨c, i, _, _, _, heq⟩ | ⟨c, hc, hcov, heq⟩ | ⟨_, heq | heq⟩ <;> rw [heq]
    · exact h
    · exact valid_refill h hc hcov hs
    · exact h
    · exact valid_clearStale h

theorem valid_of_reachable (h : Interleaving.Reachable chunkStep CacheSound .empty s) : s.Valid :=
  h.invariant valid_empty fun _ _ _ => valid_step

end Olive
