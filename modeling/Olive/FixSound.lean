import Olive.Fix

/-! The text of a pass is the original with edits that do not overlap, replaced all at once. -/

namespace Olive

namespace Fix

section Bytes

variable {xs ys : List Char} {b : Nat}

theorem utf8Len_append : utf8Len (xs ++ ys) = utf8Len xs + utf8Len ys := by
  rw [utf8Len, List.map_append, List.sum_append]
  rfl

theorem utf8Len_cons (c : Char) : utf8Len (c :: xs) = c.utf8Size + utf8Len xs := by
  rw [utf8Len, List.map_cons, List.sum_cons]
  rfl

theorem byteOffsets_get (i : Nat) :
    (byteOffsets b xs)[i]? = if i ≤ xs.length then some (b + utf8Len (xs.take i)) else none := by
  induction xs generalizing b i with
  | nil =>
    cases i with
    | zero => rfl
    | succ i => rfl
  | cons c xs ih =>
    cases i with
    | zero => rfl
    | succ i =>
      rw [byteOffsets, List.getElem?_cons_succ, ih, List.take_succ_cons, utf8Len_cons, List.length_cons,
        Nat.add_assoc]
      simp only [Nat.add_le_add_iff_right]

theorem splitAtByte_len : splitAtByte (xs ++ ys) (utf8Len xs) = some (xs, ys) := by
  induction xs with
  | nil =>
    cases ys with
    | nil => rfl
    | cons c ys => rfl
  | cons c xs ih =>
    have hpos := c.utf8Size_pos
    have hne : utf8Len (c :: xs) ≠ 0 := by
      rw [utf8Len_cons]
      omega
    have hle : c.utf8Size ≤ utf8Len (c :: xs) := by
      rw [utf8Len_cons]
      exact Nat.le_add_right _ _
    have hrest : utf8Len (c :: xs) - c.utf8Size = utf8Len xs := by
      rw [utf8Len_cons, Nat.add_sub_cancel_left]
    rw [List.cons_append, splitAtByte, if_neg hne, if_pos hle, hrest, ih]
    rfl

theorem replaceRange_len {pre mid post r : List Char} :
    replaceRange (pre ++ mid ++ post) (utf8Len pre) (utf8Len (pre ++ mid)) r = some (pre ++ r ++ post) := by
  have hbefore : splitAtByte (pre ++ mid ++ post) (utf8Len pre) = some (pre, mid ++ post) := by
    rw [List.append_assoc]
    exact splitAtByte_len
  have hle : utf8Len pre ≤ utf8Len (pre ++ mid) := by
    rw [utf8Len_append]
    exact Nat.le_add_right _ _
  simp only [replaceRange, hbefore, splitAtByte_len, Option.bind_eq_bind, Option.bind_some, if_pos hle]

end Bytes

section Simultaneous

variable {original : List Char} {edits kept : List Edit} {e : Edit}

/-- The original from offset `k` on, with every edit replaced, the edits in the order of the text. -/
def simultaneous (original : List Char) : Nat → List Edit → List Char
  | k, [] => original.drop k
  | k, e :: es =>
    (original.drop k).take (e.start.toNat - k) ++ e.replacement ++ simultaneous original e.stop.toNat es

/-- An insertion overlaps a range only inside it. -/
def Overlap (e k : Edit) : Prop := k.start < e.stop ∧ e.start < k.stop

/-- Some edits are kept and the others left out. -/
structure Spliced (original : List Char) (edits kept left : List Edit) : Prop where
  perm : (kept ++ left).Perm edits
  inRange : ∀ e ∈ kept, e.start ≤ e.stop ∧ e.stop.toNat ≤ original.length
  apart : kept.Pairwise fun a b => a.stop ≤ b.start
  left : ∀ e ∈ left, e.stop < e.start ∨ original.length < e.stop.toNat ∨
    ∃ k ∈ kept, e.start ≤ k.start ∧ Overlap e k

/-- Where the first edit starts. -/
def limit (original : List Char) : List Edit → Nat
  | [] => original.length
  | e :: _ => e.start.toNat

def behind (original : List Char) : List Edit → List Char
  | [] => []
  | e :: es => e.replacement ++ simultaneous original e.stop.toNat es

theorem simultaneous_eq (k : Nat) : simultaneous original k kept =
    (original.drop k).take (limit original kept - k) ++ behind original kept := by
  cases kept with
  | nil =>
    rw [simultaneous, behind, limit, List.append_nil, ← List.length_drop, List.take_length]
  | cons e es => rw [simultaneous, behind, limit, List.append_assoc]

theorem limit_le (h : ∀ e ∈ kept, e.start ≤ e.stop ∧ e.stop.toNat ≤ original.length) :
    limit original kept ≤ original.length := by
  cases kept with
  | nil => exact Nat.le_refl _
  | cons e es =>
    obtain ⟨hle, hlen⟩ := h e List.mem_cons_self
    exact (UInt64.le_iff_toNat_le.mp hle).trans hlen

/-- One more edit in front of the others. -/
theorem replaceRange_simultaneous (hkept : ∀ e ∈ kept, e.start ≤ e.stop ∧ e.stop.toNat ≤ original.length)
    (hle : e.start ≤ e.stop) (hlimit : e.stop.toNat ≤ limit original kept) :
    replaceRange (simultaneous original 0 kept) (utf8Len (original.take e.start.toNat))
      (utf8Len (original.take e.stop.toNat)) e.replacement =
        some (simultaneous original 0 (e :: kept)) := by
  rw [UInt64.le_iff_toNat_le] at hle
  have hlen := hlimit.trans (limit_le hkept)
  have hstop : original.take e.stop.toNat =
      original.take e.start.toNat ++ (original.drop e.start.toNat).take (e.stop.toNat - e.start.toNat) := by
    rw [← List.take_add, Nat.add_sub_cancel' hle]
  have hlimit' : original.take (limit original kept) = original.take e.stop.toNat ++
      (original.drop e.stop.toNat).take (limit original kept - e.stop.toNat) := by
    rw [← List.take_add, Nat.add_sub_cancel' hlimit]
  have htext : simultaneous original 0 kept =
      original.take e.start.toNat ++ (original.drop e.start.toNat).take (e.stop.toNat - e.start.toNat) ++
        simultaneous original e.stop.toNat kept := by
    rw [simultaneous_eq, List.drop_zero, Nat.sub_zero, hlimit', ← hstop, simultaneous_eq,
      List.append_assoc]
  rw [htext, hstop, replaceRange_len, simultaneous, List.drop_zero, Nat.sub_zero]

end Simultaneous

section Loop

variable {original : List Char} {edits kept left : List Edit} {e : Edit}

def lastStart : List Edit → UInt64
  | [] => usizeMax
  | k :: _ => k.start

/-- The state of the loop after the edits that are kept. -/
def splice (original : List Char) (kept : List Edit) (codes : List String) : Splice :=
  ⟨simultaneous original 0 kept, lastStart kept, kept.length, codes⟩

theorem limit_of_lastStart {u : UInt64} (hu : u ≤ lastStart kept) (hlen : u.toNat ≤ original.length) :
    u.toNat ≤ limit original kept := by
  cases kept with
  | nil => exact hlen
  | cons k ks => exact UInt64.le_iff_toNat_le.mp hu

/-- An edit is left out, or put in front of the others. -/
theorem applyEdit_cases (hkept : ∀ e ∈ kept, e.start ≤ e.stop ∧ e.stop.toNat ≤ original.length)
    (e : Edit) :
    (e.stop < e.start ∨ original.length < e.stop.toNat ∨ lastStart kept < e.stop) ∧
      (∀ codes, applyEdit (byteOffsets 0 original) (splice original kept codes) e =
        some (splice original kept codes)) ∨
    (e.start ≤ e.stop ∧ e.stop.toNat ≤ original.length ∧ e.stop ≤ lastStart kept) ∧
      ∀ codes, applyEdit (byteOffsets 0 original) (splice original kept codes) e =
        some (splice original (e :: kept) (addCode codes e.code)) := by
  by_cases hskip : e.stop < e.start ∨ lastStart kept < e.stop
  · refine .inl ⟨hskip.imp_right .inr, fun codes => ?_⟩
    exact if_pos hskip
  obtain ⟨hinverted, hlate⟩ := not_or.mp hskip
  rw [UInt64.not_lt] at hinverted hlate
  have hle := UInt64.le_iff_toNat_le.mp hinverted
  by_cases hlen : e.stop.toNat ≤ original.length
  · refine .inr ⟨⟨hinverted, hlen, hlate⟩, fun codes => ?_⟩
    have hreplace := replaceRange_simultaneous hkept hinverted (limit_of_lastStart hlate hlen)
    have hstart : (byteOffsets 0 original)[e.start.toNat]? =
        some (utf8Len (original.take e.start.toNat)) := by
      rw [byteOffsets_get, if_pos (hle.trans hlen), Nat.zero_add]
    have hstop : (byteOffsets 0 original)[e.stop.toNat]? =
        some (utf8Len (original.take e.stop.toNat)) := by
      rw [byteOffsets_get, if_pos hlen, Nat.zero_add]
    have hgo : ¬(e.stop < e.start ∨ (splice original kept codes).lastStart < e.stop) := hskip
    rw [applyEdit, if_neg hgo, hstart, hstop]
    simp only [splice, hreplace, Option.map_some, lastStart, List.length_cons]
  · rw [Nat.not_le] at hlen
    refine .inl ⟨.inr (.inl hlen), fun codes => ?_⟩
    have hstop : (byteOffsets 0 original)[e.stop.toNat]? = none := by
      rw [byteOffsets_get, if_neg (Nat.not_le_of_lt hlen)]
    have hgo : ¬(e.stop < e.start ∨ (splice original kept codes).lastStart < e.stop) := hskip
    rw [applyEdit, if_neg hgo, hstop]
    cases (byteOffsets 0 original)[e.start.toNat]? with
    | none => rfl
    | some b => rfl

/-- An edit that ends behind the last start overlaps the edit there. -/
theorem overlap_of_late (hkept : ∀ e ∈ kept, e.start ≤ e.stop ∧ e.stop.toNat ≤ original.length)
    (hsorted : ∀ k ∈ kept, k.NotBefore e) (hlate : lastStart kept < e.stop) :
    ∃ k ∈ kept, e.start ≤ k.start ∧ Overlap e k := by
  cases kept with
  | nil =>
    have hmax : usizeMax.toNat = 2 ^ 64 - 1 := rfl
    have hlt := UInt64.lt_iff_toNat_lt.mp hlate
    have hbound := e.stop.toNat_lt
    rw [lastStart, hmax] at hlt
    omega
  | cons k ks =>
    have hk := (hkept k List.mem_cons_self).1
    have hlt : k.start < e.stop := hlate
    refine ⟨k, List.mem_cons_self, ?_⟩
    rw [Overlap]
    rcases hsorted k List.mem_cons_self with hstart | ⟨hstart, hstop⟩
    · simp only [UInt64.lt_iff_toNat_lt, UInt64.le_iff_toNat_le] at *
      omega
    · simp only [← UInt64.toNat_inj, UInt64.lt_iff_toNat_lt, UInt64.le_iff_toNat_le] at *
      omega

theorem Spliced.skip (h : Spliced original edits kept left)
    (hout : e.stop < e.start ∨ original.length < e.stop.toNat ∨
      ∃ k ∈ kept, e.start ≤ k.start ∧ Overlap e k) :
    Spliced original (edits ++ [e]) kept (left ++ [e]) where
  perm := by
    rw [← List.append_assoc]
    exact h.perm.append_right [e]
  inRange := h.inRange
  apart := h.apart
  left e' he' := by
    rcases List.mem_append.mp he' with he' | he'
    · exact h.left e' he'
    · rwa [List.mem_singleton.mp he']

theorem Spliced.add (h : Spliced original edits kept left)
    (hin : e.start ≤ e.stop ∧ e.stop.toNat ≤ original.length ∧ e.stop ≤ lastStart kept) :
    Spliced original (edits ++ [e]) (e :: kept) left where
  perm := (h.perm.cons e).trans (List.perm_append_singleton e edits).symm
  inRange e' he' := by
    rcases List.mem_cons.mp he' with rfl | he'
    · exact ⟨hin.1, hin.2.1⟩
    · exact h.inRange e' he'
  apart := by
    refine List.pairwise_cons.mpr ⟨fun k hk => ?_, h.apart⟩
    cases hkept : kept with
    | nil =>
      rw [hkept] at hk
      cases hk
    | cons first rest =>
      have hfirst : e.stop ≤ first.start := by
        have hlast := hin.2.2
        rwa [hkept] at hlast
      rw [hkept] at hk
      rcases List.mem_cons.mp hk with rfl | hk
      · exact hfirst
      · have hapart := h.apart
        rw [hkept, List.pairwise_cons] at hapart
        have hrange := (h.inRange first (by rw [hkept]; exact List.mem_cons_self)).1
        exact UInt64.le_trans (UInt64.le_trans hfirst hrange) (hapart.1 k hk)
  left e' he' := (h.left e' he').imp_right fun h => h.imp_right fun ⟨k, hk, hover⟩ =>
    ⟨k, List.mem_cons_of_mem e hk, hover⟩

theorem foldlM_spliced (rest : List Edit) (h : Spliced original edits kept left)
    (hsorted : ∀ k ∈ kept, ∀ e ∈ rest, k.NotBefore e) (hrest : rest.Pairwise Edit.NotBefore) :
    ∃ kept' left', Spliced original (edits ++ rest) kept' left' ∧ ∀ codes, ∃ codes',
      rest.foldlM (applyEdit (byteOffsets 0 original)) (splice original kept codes) =
        some (splice original kept' codes') := by
  induction rest generalizing edits kept left with
  | nil =>
    rw [List.append_nil]
    exact ⟨kept, left, h, fun codes => ⟨codes, rfl⟩⟩
  | cons e rest ih =>
    obtain ⟨hfirst, hrest⟩ := List.pairwise_cons.mp hrest
    have hmore : edits ++ e :: rest = edits ++ [e] ++ rest := by
      rw [List.append_assoc]
      rfl
    rw [hmore]
    have hkept : ∀ k ∈ kept, ∀ e' ∈ rest, k.NotBefore e' := fun k hk e' he' =>
      hsorted k hk e' (List.mem_cons_of_mem e he')
    rcases applyEdit_cases h.inRange e with ⟨hout, hskip⟩ | ⟨hin, hadd⟩
    · have hover : e.stop < e.start ∨ original.length < e.stop.toNat ∨
          ∃ k ∈ kept, e.start ≤ k.start ∧ Overlap e k := hout.imp_right fun h' => h'.imp_right fun hlate =>
        overlap_of_late h.inRange (fun k hk => hsorted k hk e List.mem_cons_self) hlate
      obtain ⟨kept', left', h', hrun⟩ := ih (h.skip hover) hkept hrest
      refine ⟨kept', left', h', fun codes => ?_⟩
      obtain ⟨codes', hcodes⟩ := hrun codes
      refine ⟨codes', ?_⟩
      rw [List.foldlM_cons, hskip]
      exact hcodes
    · have hsorted' : ∀ k ∈ e :: kept, ∀ e' ∈ rest, k.NotBefore e' := by
        intro k hk e' he'
        rcases List.mem_cons.mp hk with rfl | hk
        · exact hfirst e' he'
        · exact hkept k hk e' he'
      obtain ⟨kept', left', h', hrun⟩ := ih (h.add hin) hsorted' hrest
      refine ⟨kept', left', h', fun codes => ?_⟩
      obtain ⟨codes', hcodes⟩ := hrun (addCode codes e.code)
      refine ⟨codes', ?_⟩
      rw [List.foldlM_cons, hadd]
      exact hcodes

end Loop

section Sorting

theorem notBefore_total (a b : Edit) : a.NotBefore b ∨ b.NotBefore a := by
  simp only [Edit.NotBefore, UInt64.lt_iff_toNat_lt, UInt64.le_iff_toNat_le, ← UInt64.toNat_inj]
  omega

theorem notBefore_trans {a b c : Edit} (hab : a.NotBefore b) (hbc : b.NotBefore c) : a.NotBefore c := by
  simp only [Edit.NotBefore, UInt64.lt_iff_toNat_lt, UInt64.le_iff_toNat_le, ← UInt64.toNat_inj] at *
  omega

instance : Std.Total Edit.NotBefore := ⟨notBefore_total⟩

instance : IsTrans Edit Edit.NotBefore := ⟨fun _ _ _ => notBefore_trans⟩

theorem Spliced.nil (original : List Char) : Spliced original [] [] [] where
  perm := .refl _
  inRange _ he := absurd he List.not_mem_nil
  apart := .nil
  left _ he := absurd he List.not_mem_nil

theorem Spliced.of_perm {original : List Char} {edits edits' kept left : List Edit}
    (h : Spliced original edits kept left) (hperm : edits.Perm edits') :
    Spliced original edits' kept left := ⟨h.perm.trans hperm, h.inRange, h.apart, h.left⟩

theorem applyEdits_spliced (original : List Char) (edits : List Edit) :
    ∃ kept left, Spliced original edits kept left ∧ ∀ codes, ∃ codes',
      applyEdits original edits codes = some (splice original kept codes') := by
  obtain ⟨kept, left, h, hrun⟩ := foldlM_spliced (edits.insertionSort Edit.NotBefore) (.nil original)
    (fun k hk => absurd hk List.not_mem_nil) (List.pairwise_insertionSort _ _)
  rw [List.nil_append] at h
  exact ⟨kept, left, h.of_perm (List.perm_insertionSort _ _), hrun⟩

/-- An edit of some text is kept once. -/
theorem Spliced.once {original : List Char} {edits kept left : List Edit}
    (h : Spliced original edits kept left) {e : Edit} (he : e.start < e.stop) : kept.count e ≤ 1 := by
  have hcount : ∀ ks : List Edit, ks.Pairwise (fun a b => a.stop ≤ b.start) → ks.count e ≤ 1 := by
    intro ks hks
    induction ks with
    | nil => exact Nat.zero_le _
    | cons k ks ih =>
      obtain ⟨hk, hks⟩ := List.pairwise_cons.mp hks
      by_cases hke : k = e
      · subst hke
        have hnot : k ∉ ks := fun hmem => UInt64.not_lt.mpr (hk k hmem) he
        rw [List.count_cons_self, List.count_eq_zero_of_not_mem hnot]
      · rw [List.count_cons_of_ne hke]
        exact ih hks
  exact hcount kept h.apart

end Sorting

section Passes

variable {files : Files} {diagnostics : List Diagnostic} {dryRun : Bool} {kept : Nat → List Edit}

def appliedIn (files : Files) (kept : Nat → List Edit) (file : Nat) : Nat :=
  if (files.sources file).isSome then (kept file).length else 0

def writtenFor (files : Files) (kept : Nat → List Edit) (file : Nat) : Option (String × List Char) :=
  (files.sources file).bind fun source =>
    if kept file = [] then none else some (source.1, simultaneous source.2 0 (kept file))

/-- Each file's text is written with its edits, and the edits are counted. -/
def Reports (files : Files) (kept : Nat → List Edit) (dryRun : Bool) (order : List Nat) (pass : Pass) :
    Except Failure Pass → Prop
  | .ok pass' => pass'.applied = pass.applied + (order.map (appliedIn files kept)).sum ∧
      pass'.written = pass.written ++ if dryRun then [] else order.filterMap (writtenFor files kept)
  | .error .panicked => False
  | .error (.writeFailed path) => dryRun = false ∧ files.writable path = false

/-- The kept edits make the text, whatever codes have been seen. -/
def Keeps (files : Files) (diagnostics : List Diagnostic) (kept : Nat → List Edit) : Prop :=
  ∀ file path original, files.sources file = some (path, original) → ∀ codes, ∃ codes',
    applyEdits original (fileEdits diagnostics files.firstParty file) codes =
      some (splice original (kept file) codes')

theorem fixFile_reports (hkept : Keeps files diagnostics kept) (pass : Pass) (file : Nat) :
    Reports files kept dryRun [file] pass (fixFile files diagnostics dryRun pass file) := by
  unfold fixFile
  cases hsource : files.sources file with
  | none =>
    have hwritten : writtenFor files kept file = none := by rw [writtenFor, hsource, Option.bind_none]
    simp [Reports, appliedIn, hsource, hwritten]
  | some source =>
    obtain ⟨path, original⟩ := source
    obtain ⟨codes', happly⟩ := hkept file path original hsource pass.codes
    simp only [happly]
    have happlied : appliedIn files kept file = (kept file).length := by
      rw [appliedIn, hsource]
      rfl
    by_cases hnone : kept file = []
    · have hzero : (splice original (kept file) codes').applied = 0 := congrArg List.length hnone
      have hwritten : writtenFor files kept file = none := by
        rw [writtenFor, hsource, Option.bind_some, if_pos hnone]
      rw [if_pos hzero]
      simp [Reports, happlied, hnone, hwritten]
    · have hsome : (splice original (kept file) codes').applied ≠ 0 :=
        fun he => hnone (List.length_eq_zero_iff.mp he)
      have hwritten : writtenFor files kept file = some (path, simultaneous original 0 (kept file)) := by
        rw [writtenFor, hsource, Option.bind_some, if_neg hnone]
      rw [if_neg hsome]
      cases dryRun with
      | true => simp [Reports, happlied, splice]
      | false =>
        cases hwrite : files.writable path with
        | true => simp [Reports, happlied, hwritten, splice]
        | false => simp [Reports, hwrite]

theorem foldlM_reports (hkept : Keeps files diagnostics kept) (order : List Nat) (pass : Pass) :
    Reports files kept dryRun order pass
      (order.foldlM (fixFile files diagnostics dryRun) pass) := by
  induction order generalizing pass with
  | nil => exact ⟨rfl, by cases dryRun <;> exact (List.append_nil _).symm⟩
  | cons file order ih =>
    have hfile : Reports files kept dryRun [file] pass (fixFile files diagnostics dryRun pass file) :=
      fixFile_reports hkept pass file
    rw [List.foldlM_cons]
    cases hrun : fixFile files diagnostics dryRun pass file with
    | error e =>
      rw [hrun] at hfile
      cases e with
      | panicked => exact hfile
      | writeFailed path => exact hfile
    | ok mid =>
      rw [hrun] at hfile
      obtain ⟨happlied, hwritten⟩ := hfile
      have hrest := ih mid
      rw [List.map_singleton, List.sum_singleton] at happlied
      show Reports files kept dryRun (file :: order) pass
        (order.foldlM (fixFile files diagnostics dryRun) mid)
      cases hlast : order.foldlM (fixFile files diagnostics dryRun) mid with
      | error e =>
        rw [hlast] at hrest
        cases e with
        | panicked => exact hrest
        | writeFailed path => exact hrest
      | ok last =>
        rw [hlast] at hrest
        obtain ⟨hsum, htexts⟩ := hrest
        refine ⟨?_, ?_⟩
        · rw [hsum, happlied, List.map_cons, List.sum_cons, Nat.add_assoc]
        · rw [htexts, hwritten]
          cases dryRun with
          | true => simp
          | false =>
            cases hw : writtenFor files kept file with
            | none => simp [hw]
            | some text => simp [hw]

/-- Each text that the pass writes is the original with edits that do not overlap, replaced at once.
An edit is left out where it is no range of the text or overlaps one that does not start before it. -/
theorem fix_pass_splices (files : Files) (diagnostics : List Diagnostic) (dryRun : Bool)
    (order : List Nat) :
    ∃ kept : Nat → List Edit,
      (∀ file path original, files.sources file = some (path, original) →
        (∃ left, Spliced original (fileEdits diagnostics files.firstParty file) (kept file) left) ∧
        ∀ e : Edit, e.start < e.stop → (kept file).count e ≤ 1) ∧
      Reports files kept dryRun order ⟨0, [], [], []⟩ (fixPass files diagnostics dryRun order) := by
  have hfile : ∀ file, ∃ kept, ∀ path original, files.sources file = some (path, original) →
      (∃ left, Spliced original (fileEdits diagnostics files.firstParty file) kept left) ∧
      ∀ codes, ∃ codes', applyEdits original (fileEdits diagnostics files.firstParty file) codes =
        some (splice original kept codes') := by
    intro file
    cases hsource : files.sources file with
    | none => exact ⟨[], fun _ _ he => (nomatch he)⟩
    | some source =>
      obtain ⟨kept, left, h, hrun⟩ :=
        applyEdits_spliced source.2 (fileEdits diagnostics files.firstParty file)
      refine ⟨kept, fun path original he => ?_⟩
      rw [Option.some.inj he] at h hrun
      exact ⟨⟨left, h⟩, hrun⟩
  choose kept hkept using hfile
  refine ⟨kept, fun file path original hsource => ?_, foldlM_reports (fun file path original hsource =>
    (hkept file path original hsource).2) order _⟩
  obtain ⟨left, h⟩ := (hkept file path original hsource).1
  exact ⟨⟨left, h⟩, fun e he => h.once he⟩

/-- Two identical insertions are both applied. -/
theorem insertion_applied_twice : ¬ ∀ (files : Files) (diagnostics : List Diagnostic) (dryRun : Bool)
    (order : List Nat), ∃ kept : Nat → List Edit,
      (∀ file path original, files.sources file = some (path, original) →
        (∃ left, Spliced original (fileEdits diagnostics files.firstParty file) (kept file) left) ∧
        ∀ e : Edit, (kept file).count e ≤ 1) ∧
      Reports files kept dryRun order ⟨0, [], [], []⟩ (fixPass files diagnostics dryRun order) := by
  intro h
  let insertion : Suggestion := ⟨.machineApplicable, 0, 1, 1, ['x']⟩
  let edit : Edit := ⟨1, 1, ['x'], none⟩
  obtain ⟨kept, hkept, hreports⟩ := h ⟨fun _ => some ("main.liv", ['a', 'b']), fun _ => true, fun _ => true⟩
    [⟨none, [insertion, insertion]⟩] false [0]
  obtain ⟨⟨left, hspliced⟩, honce⟩ := hkept 0 _ _ rfl
  have hpass : fixPass ⟨fun _ => some ("main.liv", ['a', 'b']), fun _ => true, fun _ => true⟩
      [⟨none, [insertion, insertion]⟩] false [0] =
        .ok ⟨2, [], ["main.liv"], [("main.liv", ['a', 'x', 'x', 'b'])]⟩ := rfl
  rw [hpass] at hreports
  have htwo : (kept 0).length = 2 := by
    have hsum := hreports.1.symm
    simpa [appliedIn] using hsum
  have hperm : (kept 0 ++ left).Perm [edit, edit] := hspliced.perm
  have hlen := hperm.length_eq
  rw [List.length_append, htwo] at hlen
  have hleft : left = [] := List.length_eq_zero_iff.mp (Nat.add_left_cancel hlen)
  rw [hleft, List.append_nil] at hperm
  have hcount : (kept 0).count edit = 2 := hperm.count_eq edit
  exact absurd (honce edit) (by rw [hcount]; decide)

end Passes

end Fix

end Olive
