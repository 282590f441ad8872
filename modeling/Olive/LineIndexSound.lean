import Olive.Lines
import Olive.LineIndex

/-! Editor positions and offsets are inverse to each other. -/

namespace Olive

namespace Lsp

open Lines

def isNewline (c : Char) : Bool := c == '\n'

def units (c : Char) : Nat := (lenUtf16 c).toNat

theorem units_pos (c : Char) : 0 < units c := by
  unfold units lenUtf16
  split
  · exact show 0 < (1 : UInt32).toNat by decide
  · exact show 0 < (2 : UInt32).toNat by decide

theorem sum_lenUtf16 (cs : List Char) : (cs.map lenUtf16).sum = .ofNat (widths units cs) := by
  induction cs with
  | nil => rfl
  | cons c cs ih =>
    have hsum : widths units (c :: cs) = units c + widths units cs := List.sum_cons
    rw [List.map_cons, List.sum_cons, ih, hsum, UInt32.ofNat_add, units, UInt32.ofNat_toNat]

section Starts

variable {k : Nat} {cs ds : List Char}

theorem startsFrom_append : startsFrom k (cs ++ ds) = startsFrom k cs ++ startsFrom (k + cs.length) ds := by
  rw [startsFrom, List.zipIdx_append, List.filterMap_append]
  rfl

theorem startsFrom_plain (h : ∀ c ∈ cs, isNewline c = false) : startsFrom k cs = [] := by
  refine List.filterMap_eq_nil_iff.mpr fun c hc => if_neg fun he => ?_
  have hplain := h c.1 (List.fst_mem_of_mem_zipIdx hc)
  rw [he] at hplain
  cases hplain

theorem startsFrom_cons (c : Char) : startsFrom k (c :: ds) =
    if c = '\n' then (k + 1) :: startsFrom (k + 1) ds else startsFrom (k + 1) ds := by
  rw [startsFrom, List.zipIdx_cons, List.filterMap_cons]
  by_cases hc : c = '\n'
  · simp only [if_pos hc]
    rfl
  · simp only [if_neg hc]
    rfl

theorem mem_startsFrom {x : Nat} (h : x ∈ startsFrom k cs) : k < x ∧ x ≤ k + cs.length := by
  obtain ⟨c, hc, hx⟩ := List.mem_filterMap.mp h
  obtain ⟨hlow, hhigh, -⟩ := List.mem_zipIdx hc
  split at hx
  next =>
    obtain rfl := Option.some.inj hx
    exact ⟨Nat.lt_succ_of_le hlow, Nat.succ_le_of_lt hhigh⟩
  next => cases hx

theorem length_startsFrom : (startsFrom k cs).length = cs.countP isNewline := by
  induction cs generalizing k with
  | nil => rfl
  | cons c cs ih =>
    by_cases hc : c = '\n'
    · have hbreak : isNewline c = true := beq_iff_eq.mpr hc
      rw [startsFrom_cons, if_pos hc, List.length_cons, ih, List.countP_cons_of_pos hbreak]
    · have hplain : ¬isNewline c = true := fun h => hc (beq_iff_eq.mp h)
      rw [startsFrom_cons, if_neg hc, ih, List.countP_cons_of_neg hplain]

end Starts

variable {source : String} {l : Nat} {pre line post : List Char}

/-- The starts of the lines before, of line `l`, and of those behind it. -/
theorem lineStarts_split (h : LineAt isNewline source.toList l pre line post) :
    ∃ earlier, earlier.length = l ∧ (∀ s ∈ earlier, s < pre.length) ∧
      (LineIndex.new source).lineStarts =
        earlier ++ pre.length :: startsFrom (pre.length + line.length) post := by
  have hstarts : (LineIndex.new source).lineStarts =
      (0 :: startsFrom 0 pre) ++ startsFrom (pre.length + line.length) post := by
    rw [LineIndex.new, h.eq, startsFrom_append, startsFrom_append, startsFrom_plain h.plain, Nat.zero_add]
    rfl
  rw [hstarts]
  rcases h.pre_end with rfl | ⟨init, a, rfl, ha⟩
  · refine ⟨[], h.breaks, fun s hs => absurd hs List.not_mem_nil, rfl⟩
  · obtain rfl : a = '\n' := beq_iff_eq.mp ha
    refine ⟨0 :: startsFrom 0 init, ?_, fun s hs => ?_, ?_⟩
    · rw [List.length_cons, length_startsFrom, ← h.breaks, List.countP_append, List.countP_singleton]
      rfl
    · rw [List.length_append, List.length_singleton]
      rcases List.mem_cons.mp hs with rfl | hs
      · exact Nat.succ_pos _
      · have hle := (mem_startsFrom hs).2
        rw [Nat.zero_add] at hle
        exact Nat.lt_succ_of_le hle
    · rw [startsFrom_append, startsFrom_cons, if_pos rfl, List.length_append, List.length_singleton,
        Nat.zero_add]
      simp [startsFrom]

theorem lineStarts_at (h : LineAt isNewline source.toList l pre line post) :
    (LineIndex.new source).lineStarts[l]? = some pre.length := by
  obtain ⟨earlier, hlen, -, hstarts⟩ := lineStarts_split h
  rw [hstarts, ← hlen, List.getElem?_append_right (Nat.le_refl _), Nat.sub_self]
  rfl

theorem lineStarts_next (h : LineAt isNewline source.toList l pre line post) :
    (LineIndex.new source).lineStarts[l + 1]? =
      if post = [] then none else some (pre.length + line.length + 1) := by
  obtain ⟨earlier, hlen, -, hstarts⟩ := lineStarts_split h
  have hbehind : earlier.length + 1 - earlier.length = 1 := Nat.add_sub_cancel_left ..
  rw [hstarts, ← hlen, List.getElem?_append_right (Nat.le_succ _), Nat.succ_eq_add_one, hbehind,
    List.getElem?_cons_succ]
  rcases h.post_start with rfl | ⟨a, tail, rfl, ha⟩
  · rfl
  · obtain rfl : a = '\n' := beq_iff_eq.mp ha
    rw [startsFrom_cons, if_pos rfl]
    rfl

/-- The binary search finds the line. -/
theorem lineOf_at (h : LineAt isNewline source.toList l pre line post) {j : Nat}
    (hj : j ≤ line.length) :
    (LineIndex.new source).lineOf (pre.length + j) = l := by
  obtain ⟨earlier, hlen, hbelow, hstarts⟩ := lineStarts_split h
  have hlater : ∀ s ∈ startsFrom (pre.length + line.length) post, pre.length + j < s := fun s hs =>
    Nat.lt_of_le_of_lt (Nat.add_le_add_left hj _) (mem_startsFrom hs).1
  have hearlier : earlier.countP (· < pre.length + j) = l := by
    rw [← hlen, List.countP_eq_length]
    exact fun s hs => decide_eq_true (Nat.lt_add_right j (hbelow s hs))
  have hnone : (startsFrom (pre.length + line.length) post).countP (· < pre.length + j) = 0 :=
    List.countP_eq_zero.mpr fun s hs => by simp [(hlater s hs).le]
  have hcount : (LineIndex.new source).lineStarts.countP (· < pre.length + j) =
      if 0 < j then l + 1 else l := by
    rw [hstarts, List.countP_append, hearlier, List.countP_cons, hnone, Nat.zero_add]
    simp only [Nat.lt_add_right_iff_pos, decide_eq_true_eq]
    split
    · rfl
    · rfl
  unfold LineIndex.lineOf binarySearch
  rw [hcount]
  by_cases hpos : 0 < j
  · rw [if_pos hpos]
    have hnot : (LineIndex.new source).lineStarts[l + 1]? ≠ some (pre.length + j) := by
      rw [lineStarts_next h]
      split
      · exact fun he => (nomatch he)
      · intro he
        have := Option.some.inj he
        omega
    rw [if_neg hnot]
    rfl
  · obtain rfl : j = 0 := Nat.eq_zero_of_not_pos hpos
    have hat : (LineIndex.new source).lineStarts[l]? = some (pre.length + 0) := lineStarts_at h
    rw [if_neg hpos, if_pos hat]

theorem toLsp_at (h : LineAt isNewline source.toList l pre line post) {j : Nat} (hj : j ≤ line.length) :
    (LineIndex.new source).toLsp (pre.length + j) =
      some ⟨.ofNat l, .ofNat (widths units (line.take j))⟩ := by
  have hchars : (LineIndex.new source).chars = source.toList := rfl
  have hlen : pre.length + j ≤ source.toList.length := by
    rw [h.eq, List.length_append, List.length_append]
    omega
  unfold LineIndex.toLsp
  simp only [hchars, Nat.min_eq_left hlen, lineOf_at h hj, lineStarts_at h, Option.bind_eq_bind,
    Option.bind_some, if_pos (Nat.le_add_right _ _), h.take hj, List.drop_left, sum_lenUtf16]

theorem toLsp_clamped (o : Nat) : (LineIndex.new source).toLsp o =
    (LineIndex.new source).toLsp (min o source.toList.length) := by
  have hchars : (LineIndex.new source).chars = source.toList := rfl
  unfold LineIndex.toLsp
  rw [hchars, Nat.min_assoc, Nat.min_self]

/-- An offset with `l` newlines before it. -/
structure OnLine (chars : List Char) (l o : Nat) : Prop where
  le : o ≤ chars.length
  line : (chars.take o).countP isNewline = l

theorem exists_place {o : Nat} (ho : o ≤ source.toList.length) :
    ∃ l pre line post, LineAt isNewline source.toList l pre line post ∧
      ∃ j ≤ line.length, o = pre.length + j := by
  obtain ⟨pre, line, post, h⟩ := exists_lineAt (List.take_sublist o source.toList).countP_le
  exact ⟨_, pre, line, post, h, h.place ho rfl⟩

theorem toLsp_after {o : Nat} (ho : o ≤ source.toList.length) : (LineIndex.new source).toLsp o =
    some ⟨.ofNat (after isNewline units (source.toList.take o)).1,
      .ofNat (after isNewline units (source.toList.take o)).2⟩ := by
  obtain ⟨l, pre, line, post, h, j, hj, rfl⟩ := exists_place ho
  rw [toLsp_at h hj, h.after_take hj]

/-- The loop stops at the first place that is not before the column, or at the end of the line. -/
theorem walk_stops {character u : UInt32} {cs : List Char} {offset : Nat}
    (hsmall : u.toNat + widths units cs < 2 ^ 32) :
    ∃ k ≤ cs.length, LineIndex.walk character cs u offset = offset + k ∧
      (∀ j < k, u.toNat + widths units (cs.take j) < character.toNat) ∧
      (k < cs.length → character.toNat ≤ u.toNat + widths units (cs.take k)) := by
  induction cs generalizing u offset with
  | nil => exact ⟨0, Nat.le_refl 0, rfl, fun j hj => (nomatch hj), fun h => (nomatch h)⟩
  | cons c cs ih =>
    have hsum : ∀ ds, widths units (c :: ds) = units c + widths units ds := fun ds => List.sum_cons
    rw [hsum] at hsmall
    unfold LineIndex.walk
    split
    next hlt =>
      rw [UInt32.lt_iff_toNat_lt] at hlt
      have hadd : (u + lenUtf16 c).toNat = u.toNat + units c := by
        rw [UInt32.toNat_add, Nat.mod_eq_of_lt (by unfold units at hsmall; omega)]
        rfl
      have hrest : (u + lenUtf16 c).toNat + widths units cs < 2 ^ 32 := by
        rw [hadd]
        omega
      obtain ⟨k, hk, hwalk, hpassed, hreached⟩ := @ih _ (offset + 1) hrest
      rw [hadd] at hpassed hreached
      refine ⟨k + 1, Nat.succ_le_succ hk, by rw [hwalk]; omega, fun j hj => ?_, fun hlen => ?_⟩
      · cases j with
        | zero => exact hlt
        | succ j =>
          have := hpassed j (Nat.lt_of_succ_lt_succ hj)
          rw [List.take_succ_cons, hsum]
          omega
      · have := hreached (Nat.lt_of_succ_lt_succ hlen)
        rw [List.take_succ_cons, hsum]
        omega
    next hge =>
      rw [UInt32.lt_iff_toNat_lt, Nat.not_lt] at hge
      exact ⟨0, Nat.zero_le _, rfl, fun j hj => (nomatch hj), fun _ => hge⟩

theorem toCharOffset_at {p : LspPosition}
    (h : LineAt isNewline source.toList (min p.line.toNat (source.toList.countP isNewline)) pre line post) :
    (LineIndex.new source).toCharOffset p = some (LineIndex.walk p.character line 0 pre.length) := by
  have hlines : (LineIndex.new source).lineStarts.length - 1 = source.toList.countP isNewline := by
    rw [LineIndex.new, List.length_cons, length_startsFrom]
    rfl
  have hstop : ((LineIndex.new source).lineStarts[min p.line.toNat
      (source.toList.countP isNewline) + 1]?.map (· - 1)).getD (LineIndex.new source).chars.length =
        pre.length + line.length := by
    rw [lineStarts_next h]
    split_ifs with hpost
    · have hlen : (LineIndex.new source).chars.length = source.toList.length := rfl
      rw [hlen, h.eq, hpost, List.append_nil, List.length_append]
      rfl
    · rfl
  have htext : ((LineIndex.new source).chars.take (pre.length + line.length)).drop pre.length = line := by
    have hchars : (LineIndex.new source).chars = source.toList := rfl
    rw [hchars, h.take (Nat.le_refl _), List.drop_left, List.take_length]
  simp only [LineIndex.toCharOffset, hlines, lineStarts_at h, hstop, htext, Option.bind_eq_bind,
    Option.bind_some]

/-- Offsets and positions of a text are inverse, as far as there are positions. -/
structure Inverse (source : String) : Prop where
  roundTrip : ∀ o, ∃ p, (LineIndex.new source).toLsp o = some p ∧
    (LineIndex.new source).toCharOffset p = some (min o source.toList.length)
  increasing : ∀ o o' p p', o < o' → o' ≤ source.toList.length →
    (LineIndex.new source).toLsp o = some p → (LineIndex.new source).toLsp o' = some p' → p.Before p'
  nearest : ∀ p, ∃ o q, (LineIndex.new source).toCharOffset p = some o ∧
    (LineIndex.new source).toLsp o = some q ∧
    OnLine source.toList (min p.line.toNat (source.toList.countP isNewline)) o ∧
    (p.character ≤ q.character ∧
        (∀ o' q', OnLine source.toList (min p.line.toNat (source.toList.countP isNewline)) o' →
          (LineIndex.new source).toLsp o' = some q' → p.character ≤ q'.character →
            q.character ≤ q'.character) ∨
      ∀ o' q', OnLine source.toList (min p.line.toNat (source.toList.countP isNewline)) o' →
        (LineIndex.new source).toLsp o' = some q' → q'.character < p.character ∧ o' ≤ o)

section Short

variable (hshort : widths units source.toList < 2 ^ 32)

include hshort

theorem short_place (o : Nat) : (after isNewline units (source.toList.take o)).1 < 2 ^ 32 ∧
    (after isNewline units (source.toList.take o)).2 < 2 ^ 32 := by
  have hle : (after isNewline units (source.toList.take o)).1 +
      (after isNewline units (source.toList.take o)).2 ≤ _ := after_le units_pos _
  have htake : widths units (source.toList.take o) ≤ _ := widths_take_le _ o
  omega

theorem lsp_increasing {o o' : Nat} {p p' : LspPosition} (hlt : o < o') (ho' : o' ≤ source.toList.length)
    (hp : (LineIndex.new source).toLsp o = some p) (hp' : (LineIndex.new source).toLsp o' = some p') :
    p.Before p' := by
  have ho := hlt.le.trans ho'
  rw [toLsp_after ho, Option.some_inj] at hp
  rw [toLsp_after ho', Option.some_inj] at hp'
  subst hp hp'
  have hmore : source.toList.take o' = source.toList.take o ++ (source.toList.drop o).take (o' - o) := by
    rw [← List.take_add, Nat.add_sub_cancel' hlt.le]
  have hne : (source.toList.drop o).take (o' - o) ≠ [] := by
    rw [← List.length_pos_iff, List.length_take, List.length_drop]
    omega
  have hbefore : Before (after isNewline units (source.toList.take o))
      (after isNewline units (source.toList.take o')) := hmore ▸ after_before units_pos hne
  obtain ⟨hline, hunits⟩ := short_place hshort o
  obtain ⟨hline', hunits'⟩ := short_place hshort o'
  rcases hbefore with h | ⟨he, h⟩
  · refine .inl ?_
    rw [UInt32.lt_iff_toNat_lt, UInt32.toNat_ofNat_of_lt' hline, UInt32.toNat_ofNat_of_lt' hline']
    exact h
  · refine .inr ⟨congrArg UInt32.ofNat he, ?_⟩
    rw [UInt32.lt_iff_toNat_lt, UInt32.toNat_ofNat_of_lt' hunits, UInt32.toNat_ofNat_of_lt' hunits']
    exact h

theorem toChar_units {w : Nat} (hw : w ≤ widths units line)
    (h : LineAt isNewline source.toList l pre line post) : (UInt32.ofNat w).toNat = w := by
  refine UInt32.toNat_ofNat_of_lt' (Nat.lt_of_le_of_lt hw (Nat.lt_of_le_of_lt ?_ hshort))
  have hsplit : widths units source.toList = widths units pre + (widths units line + widths units post) := by
    rw [h.eq]
    simp only [widths, List.map_append, List.sum_append]
  omega

/-- Where the loop of `to_char_offset` stops on its line. -/
theorem toCharOffset_stops {p : LspPosition}
    (h : LineAt isNewline source.toList (min p.line.toNat (source.toList.countP isNewline)) pre line post) :
    ∃ k ≤ line.length, (LineIndex.new source).toCharOffset p = some (pre.length + k) ∧
      (∀ j < k, widths units (line.take j) < p.character.toNat) ∧
      (k < line.length → p.character.toNat ≤ widths units (line.take k)) := by
  have hsplit : widths units source.toList = widths units pre + (widths units line + widths units post) := by
    rw [h.eq]
    simp only [widths, List.map_append, List.sum_append]
  have hline : (0 : UInt32).toNat + widths units line < 2 ^ 32 := by
    rw [UInt32.toNat_zero]
    omega
  obtain ⟨k, hk, hwalk, hpassed, hreached⟩ := @walk_stops p.character 0 line pre.length hline
  rw [UInt32.toNat_zero] at hpassed hreached
  simp only [Nat.zero_add] at hpassed hreached
  exact ⟨k, hk, by rw [toCharOffset_at h, hwalk], hpassed, hreached⟩

theorem lsp_roundTrip (o : Nat) : ∃ p, (LineIndex.new source).toLsp o = some p ∧
    (LineIndex.new source).toCharOffset p = some (min o source.toList.length) := by
  obtain ⟨l, pre, line, post, h, j, hj, he⟩ := exists_place (Nat.min_le_right o source.toList.length)
  have hp := toLsp_at h hj
  have hle : l ≤ source.toList.countP isNewline := by
    rw [← h.breaks, h.eq, List.countP_append]
    exact Nat.le_add_right _ _
  have hl : (UInt32.ofNat l).toNat = l := by
    have hplace := (short_place hshort (pre.length + j)).1
    rw [h.after_take hj] at hplace
    exact UInt32.toNat_ofNat_of_lt' hplace
  have hunits : (UInt32.ofNat (widths units (line.take j))).toNat = widths units (line.take j) :=
    toChar_units hshort (widths_take_le _ j) h
  refine ⟨_, (toLsp_clamped o).trans (he ▸ hp), ?_⟩
  have hline : LineAt isNewline source.toList (min (UInt32.ofNat l).toNat (source.toList.countP isNewline))
      pre line post := by rwa [hl, Nat.min_eq_left hle]
  obtain ⟨k, hk, hoffset, hpassed, hreached⟩ := toCharOffset_stops hshort
    (p := ⟨.ofNat l, .ofNat (widths units (line.take j))⟩) hline
  rw [hunits] at hpassed hreached
  obtain rfl : k = j := by
    rcases Nat.lt_trichotomy k j with hlt | heq | hlt
    · have hshorter : widths units (line.take k) < _ := widths_take_lt units_pos hlt hj
      exact absurd (hreached (Nat.lt_of_lt_of_le hlt hj)) (Nat.not_le_of_lt hshorter)
    · exact heq
    · exact absurd (hpassed j hlt) (Nat.lt_irrefl _)
  rw [hoffset, he]

theorem lsp_nearest (p : LspPosition) : ∃ o q, (LineIndex.new source).toCharOffset p = some o ∧
    (LineIndex.new source).toLsp o = some q ∧
    OnLine source.toList (min p.line.toNat (source.toList.countP isNewline)) o ∧
    (p.character ≤ q.character ∧
        (∀ o' q', OnLine source.toList (min p.line.toNat (source.toList.countP isNewline)) o' →
          (LineIndex.new source).toLsp o' = some q' → p.character ≤ q'.character →
            q.character ≤ q'.character) ∨
      ∀ o' q', OnLine source.toList (min p.line.toNat (source.toList.countP isNewline)) o' →
        (LineIndex.new source).toLsp o' = some q' → q'.character < p.character ∧ o' ≤ o) := by
  obtain ⟨pre, line, post, h⟩ := exists_lineAt (Nat.min_le_right p.line.toNat
    (source.toList.countP isNewline))
  obtain ⟨k, hk, hoffset, hpassed, hreached⟩ := toCharOffset_stops hshort h
  have hcolumn : ∀ j, (UInt32.ofNat (widths units (line.take j))).toNat = widths units (line.take j) :=
    fun j => toChar_units hshort (widths_take_le _ j) h
  have hmono : ∀ {i j}, i ≤ j → j ≤ line.length →
      widths units (line.take i) ≤ widths units (line.take j) := by
    intro i j hij hj
    rcases Nat.eq_or_lt_of_le hij with rfl | hlt
    · exact Nat.le_refl _
    · exact (widths_take_lt units_pos hlt hj).le
  -- the places of the line, each with its position
  have hplaces : ∀ o' q', OnLine source.toList (min p.line.toNat (source.toList.countP isNewline)) o' →
      (LineIndex.new source).toLsp o' = some q' → ∃ j ≤ line.length, o' = pre.length + j ∧
        q'.character.toNat = widths units (line.take j) := by
    intro o' q' hon hq'
    obtain ⟨j, hj, rfl⟩ := h.place hon.le hon.line
    rw [toLsp_at h hj, Option.some_inj] at hq'
    exact ⟨j, hj, rfl, by rw [← hq', hcolumn]⟩
  have hon : OnLine source.toList (min p.line.toNat (source.toList.countP isNewline)) (pre.length + k) := by
    refine ⟨?_, ?_⟩
    · rw [h.eq, List.length_append, List.length_append]
      omega
    · have hline : (after isNewline units (source.toList.take (pre.length + k))).1 = _ := after_line _
      rw [h.after_take hk] at hline
      exact hline.symm
  refine ⟨_, _, hoffset, toLsp_at h hk, hon, ?_⟩
  by_cases hcol : p.character.toNat ≤ widths units (line.take k)
  · refine .inl ⟨?_, fun o' q' hon' hq' hle => ?_⟩
    · rw [UInt32.le_iff_toNat_le, hcolumn]
      exact hcol
    · obtain ⟨j, hj, -, hq'⟩ := hplaces o' q' hon' hq'
      rw [UInt32.le_iff_toNat_le, hq'] at hle
      rw [UInt32.le_iff_toNat_le, hcolumn, hq']
      have hkj : k ≤ j := Nat.le_of_not_lt fun hlt => absurd hle (Nat.not_le_of_lt (hpassed j hlt))
      exact hmono hkj hj
  · refine .inr fun o' q' hon' hq' => ?_
    have hend : k = line.length := by
      by_contra hne
      exact hcol (hreached (Nat.lt_of_le_of_ne hk hne))
    obtain ⟨j, hj, rfl, hcharacter⟩ := hplaces o' q' hon' hq'
    rw [← hend] at hj
    rw [UInt32.lt_iff_toNat_lt, hcharacter]
    exact ⟨Nat.lt_of_le_of_lt (hmono hj hk) (Nat.lt_of_not_le hcol), Nat.add_le_add_left hj _⟩

end Short

theorem lsp_inverse (source : String)
    (hshort : (source.toList.map fun c => (lenUtf16 c).toNat).sum < 2 ^ 32) : Inverse source where
  roundTrip := lsp_roundTrip hshort
  increasing _ _ _ _ := lsp_increasing hshort
  nearest := lsp_nearest hshort

theorem lsp_inverse_astral : Inverse "a\n😀x" := lsp_inverse "a\n😀x" (by decide)

end Lsp

end Olive
