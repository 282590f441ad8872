import Olive.FixSound
import Olive.RuntimeStringsSound

/-! The index, the slice, the characters and the search of a string count in one unit exactly on
ASCII. -/

namespace Olive

namespace RuntimeStrings

open StrMethods

section Search

variable (pat : List Char)

/-- `str::find`, the byte that the first match begins at. -/
def findByte : List Char → Option Nat
  | [] => if pat.isEmpty then some 0 else none
  | c :: text =>
    if pat.isPrefixOf (c :: text) then some 0 else (findByte text).map (· + c.utf8Size)

/-- `str::rfind`, the byte that the last match begins at. -/
def rfindByte : List Char → Option Nat
  | [] => if pat.isEmpty then some 0 else none
  | c :: text =>
    match rfindByte text with
    | some byte => some (byte + c.utf8Size)
    | none => if pat.isPrefixOf (c :: text) then some 0 else none

end Search

/-- `text[..byte].chars().count()`, none where the byte is inside a character. -/
def charsBefore (text : List Char) (byte : Nat) : Option Nat :=
  (Fix.splitAtByte text byte).map fun parts => parts.1.length

section Queries

variable (σ : State)

/-- The searches, over the one of the standard library. -/
def search (locate : List Char → List Char → Option Nat) (s needle : Ref) : Option Int :=
  match σ.asStr s, σ.asStr needle with
  | some text, some pat =>
    match locate pat text with
    | some byte => (charsBefore text byte).map fun n : Nat => (n : Int)
    | none => some (-1)
  | _, _ => some (-1)

def oliveStrFind (s needle : Ref) : Option Int :=
  search σ findByte s needle

def oliveStrRfind (s needle : Ref) : Option Int :=
  search σ rfindByte s needle

def oliveStrCharCount (s : Ref) : Option Int :=
  match s with
  | none => some 0
  | some _ => (σ.fromPtr s).map fun text => (text.length : Int)

end Queries

section Law

/-- The content of one of the strings that a call returns. -/
def returned (o : Outcome) (k : Nat) : Option (List UInt8) :=
  o.bind fun (after, refs) => (refs[k]?).bind after.bytes

/-- `s[i:i + 1]`. -/
def oneAt (i : Int) : Slice :=
  ⟨i, i + 1, 1, true, true, false⟩

/-- `s[i:]`. -/
def onward (i : Int) : Slice :=
  ⟨i, 0, 1, true, false, false⟩

/-- The position of an index in a sequence of `n`; a negative one counts from the end. -/
def position (n i : Int) : Int :=
  if i < 0 then i + n else i

variable (σ : State) (p : Nat)

/-- Slicing and indexing from `k` on begin with the needle. -/
structure StartsAt (k : Nat) (pat : List Char) : Prop where
  slice : ∃ rest, returned (oliveStrGetslice σ (some p) (onward k)) 0 = some (Utf8.encode (pat ++ rest))
  index : ∀ j c, pat[j]? = some c →
    returned (oliveStrGetChecked σ (some p) ((k + j : Nat) : Int)) 0 = some (String.utf8EncodeChar c)

/-- A search finds each needle that occurs, where it occurs. -/
def Finds (find : Ref → Ref → Option Int) (text : List Char) : Prop :=
  ∀ q pat, σ.asStr (some q) = some pat → pat <:+: text →
    ∃ k : Nat, find (some p) (some q) = some (k : Int) ∧ StartsAt σ p k pat

/-- One unit for the accesses to the string at `p`. The slice from -1 to 0 is empty, since 0 is the
front there. -/
structure OneUnit (text : List Char) : Prop where
  accepted : ∀ i n, oliveStrCharCount σ (some p) = some n →
    ((oliveStrGetChecked σ (some p) i).isSome = true ↔ -n ≤ i ∧ i < n)
  slice : ∀ i n, oliveStrCharCount σ (some p) = some n →
    (oliveStrGetChecked σ (some p) i).isSome = true →
      returned (oliveStrGetChecked σ (some p) i) 0 =
          returned (oliveStrGetslice σ (some p) (oneAt (position n i))) 0 ∧
        (i ≠ -1 → returned (oliveStrGetChecked σ (some p) i) 0 =
          returned (oliveStrGetslice σ (some p) (oneAt i)) 0)
  chars : ∀ i n, oliveStrCharCount σ (some p) = some n →
    (oliveStrGetChecked σ (some p) i).isSome = true →
      returned (oliveStrGetChecked σ (some p) i) 0 =
        returned (oliveStrChars σ (some p)) (position n i).toNat
  find : Finds σ p (oliveStrFind σ) text
  rfind : Finds σ p (oliveStrRfind σ) text

/-- The characters of ASCII but NUL, which no string of the runtime holds. -/
def Ascii (text : List Char) : Prop :=
  ∀ c ∈ text, c ≠ '\x00' ∧ c.val.toNat ≤ 0x7f

instance (text : List Char) : Decidable (Ascii text) :=
  decidable_of_iff (text.all fun c => decide (c ≠ '\x00' ∧ c.val.toNat ≤ 0x7f)) (by simp [Ascii])

end Law

section Located

variable {pat text : List Char}

/-- A byte where the pattern stands, with the text before it. -/
def Located (pat text : List Char) (byte : Nat) : Prop :=
  ∃ pre post, text = pre ++ (pat ++ post) ∧ byte = Fix.utf8Len pre

theorem located_zero (h : pat <+: text) : Located pat text 0 := by
  obtain ⟨post, hpost⟩ := h
  exact ⟨[], post, hpost.symm, rfl⟩

theorem Located.cons {byte : Nat} (h : Located pat text byte) (c : Char) :
    Located pat (c :: text) (byte + c.utf8Size) := by
  obtain ⟨pre, post, htext, hbyte⟩ := h
  refine ⟨c :: pre, post, ?_, ?_⟩
  · rw [htext]
    rfl
  · rw [hbyte, Fix.utf8Len_cons, Nat.add_comm]

theorem Located.charsBefore {byte : Nat} (h : Located pat text byte) :
    ∃ pre post, text = pre ++ (pat ++ post) ∧ charsBefore text byte = some pre.length := by
  obtain ⟨pre, post, htext, hbyte⟩ := h
  refine ⟨pre, post, htext, ?_⟩
  unfold RuntimeStrings.charsBefore
  rw [htext, hbyte, Fix.splitAtByte_len]
  rfl

theorem findByte_located (h : pat <:+: text) :
    ∃ byte, findByte pat text = some byte ∧ Located pat text byte := by
  induction text with
  | nil =>
    have hnil : pat = [] := List.infix_nil.mp h
    subst hnil
    exact ⟨0, rfl, located_zero List.prefix_rfl⟩
  | cons c text ih =>
    unfold findByte
    by_cases hpre : pat <+: c :: text
    · rw [if_pos (List.isPrefixOf_iff_prefix.mpr hpre)]
      exact ⟨0, rfl, located_zero hpre⟩
    · rw [if_neg fun hbool => hpre (List.isPrefixOf_iff_prefix.mp hbool)]
      obtain ⟨byte, hbyte, hat⟩ := ih ((List.infix_cons_iff.mp h).resolve_left hpre)
      rw [hbyte]
      exact ⟨byte + c.utf8Size, rfl, hat.cons c⟩

theorem rfindByte_of_some {byte : Nat} (h : rfindByte pat text = some byte) :
    Located pat text byte := by
  induction text generalizing byte with
  | nil =>
    unfold rfindByte at h
    split_ifs at h with hnil
    cases h
    rw [List.isEmpty_iff.mp hnil]
    exact located_zero List.prefix_rfl
  | cons c text ih =>
    unfold rfindByte at h
    cases hlater : rfindByte pat text with
    | some later =>
      simp only [hlater, Option.some.injEq] at h
      rw [← h]
      exact (ih hlater).cons c
    | none =>
      simp only [hlater] at h
      split_ifs at h with hpre
      cases h
      exact located_zero (List.isPrefixOf_iff_prefix.mp hpre)

theorem rfindByte_located (h : pat <:+: text) :
    ∃ byte, rfindByte pat text = some byte ∧ Located pat text byte := by
  have hfound : (rfindByte pat text).isSome = true := by
    induction text with
    | nil =>
      rw [List.infix_nil.mp h]
      rfl
    | cons c text ih =>
      unfold rfindByte
      cases hlater : rfindByte pat text with
      | some later => rfl
      | none =>
        have hpre : pat <+: c :: text := by
          rcases List.infix_cons_iff.mp h with hpre | hinfix
          · exact hpre
          · have := ih hinfix
            rw [hlater] at this
            cases this
        simp only [List.isPrefixOf_iff_prefix.mpr hpre, if_true, Option.isSome_some]
  obtain ⟨byte, hbyte⟩ := Option.isSome_iff_exists.mp hfound
  exact ⟨byte, hbyte, rfindByte_of_some hbyte⟩

end Located

section Reads

variable {σ : State} {p : Nat} {bytes : List UInt8} {text : List Char}

theorem fromPtr_of_bytes (h : σ.bytes (some p) = some (Utf8.encode text)) :
    σ.fromPtr (some p) = some text := by
  unfold State.fromPtr
  rw [h, Option.map_some, Utf8.decodeLossy_encode]

theorem asStr_of_bytes (h : σ.bytes (some p) = some (Utf8.encode text)) :
    σ.asStr (some p) = some text := by
  show (σ.bytes (some p)).bind Utf8.decode = some text
  rw [h, Option.bind_some, Utf8.decode_encode]

theorem charCount_of_bytes (h : σ.bytes (some p) = some (Utf8.encode text)) :
    oliveStrCharCount σ (some p) = some (text.length : Int) := by
  unfold oliveStrCharCount
  rw [fromPtr_of_bytes h]
  rfl

/-- The memory of a string begins with its content. -/
theorem Str.bytes_prefix (s : Str) : s.bytes <+: s.body ++ [0] := by
  unfold Str.bytes
  split_ifs
  · exact List.prefix_append _ _
  · exact (List.takeWhile_prefix _).trans (List.prefix_append _ _)

theorem getByte_of_bytes (h : σ.bytes (some p) = some bytes) {k : Nat} (hk : k < bytes.length) :
    getByte σ p k = bytes[k]? := by
  obtain ⟨s, hs, rfl⟩ := Option.map_eq_some_iff.mp h
  obtain ⟨rest, hrest⟩ := s.bytes_prefix
  unfold getByte State.memory
  rw [hs, Option.map_some, Option.bind_some, if_neg (by omega), Int.toNat_natCast, ← hrest,
    List.getElem?_append_left hk]

/-- The byte of a checked index: the length that it is checked against counts bytes. -/
theorem checkedByte_of_bytes (h : σ.bytes (some p) = some bytes) (i : Int) :
    checkedByte σ p i =
      if -(bytes.length : Int) ≤ i ∧ i < bytes.length then
        bytes[(position bytes.length i).toNat]?
      else none := by
  unfold checkedByte position
  rw [h, Option.bind_some]
  by_cases hin : -(bytes.length : Int) ≤ i ∧ i < bytes.length
  · rw [if_pos hin]
    by_cases hneg : i < 0
    · obtain ⟨k, hk⟩ : ∃ k : Nat, i + bytes.length = k := ⟨(i + bytes.length).toNat, by omega⟩
      simp only [if_pos hneg]
      rw [if_neg (by omega), hk, getByte_of_bytes h (by omega), Int.toNat_natCast]
    · obtain ⟨k, rfl⟩ : ∃ k : Nat, i = k := ⟨i.toNat, by omega⟩
      simp only [if_neg hneg]
      rw [if_neg (by omega), getByte_of_bytes h (by omega), Int.toNat_natCast]
  · rw [if_neg hin]
    simp only
    rw [if_pos]
    split_ifs <;> omega

theorem getChecked_isSome (h : σ.bytes (some p) = some bytes) (i : Int) :
    (oliveStrGetChecked σ (some p) i).isSome = true ↔
      -(bytes.length : Int) ≤ i ∧ i < bytes.length := by
  unfold oliveStrGetChecked
  rw [Option.bind_some, checkedByte_of_bytes h, Option.isSome_map]
  by_cases hin : -(bytes.length : Int) ≤ i ∧ i < bytes.length
  · have hlt : (position bytes.length i).toNat < bytes.length := by
      unfold position
      split_ifs <;> omega
    rw [if_pos hin, List.getElem?_eq_getElem hlt]
    exact ⟨fun _ => hin, fun _ => rfl⟩
  · rw [if_neg hin]
    exact ⟨fun he => (nomatch he), fun he => absurd he hin⟩

theorem returned_charStr (b : UInt8) :
    returned (some (σ.charStr b)) 0 = some ([b].takeWhile (· ≠ 0)) := by
  unfold returned State.charStr
  simp only [Option.bind_some, List.getElem?_cons_zero, State.bytes, State.str,
    List.getElem?_concat_length, Option.join_some, Option.map_some]
  rfl

theorem returned_strAlloc (made : List (List UInt8)) (k : Nat) :
    returned (some (σ.strAlloc made)) k = made[k]? := by
  unfold returned State.strAlloc
  simp only [Option.bind_some, List.getElem?_map]
  by_cases hk : k < made.length
  · rw [List.getElem?_range hk]
    simp only [Option.map_some, Option.bind_some, State.bytes, State.str,
      List.getElem?_append_right (Nat.le_add_right _ _), Nat.add_sub_cancel_left, List.getElem?_map,
      List.getElem?_eq_getElem hk, Option.join_some]
    rfl
  · rw [List.getElem?_eq_none (by rw [List.length_range]; omega), List.getElem?_eq_none (by omega)]
    rfl

theorem returned_texts (made : List (List Char)) (k : Nat) :
    returned (some (σ.texts made)) k =
      (made[k]?).map fun out => Utf8.encode (out.filter (· ≠ '\x00')) := by
  unfold State.texts State.strInternal
  rw [returned_strAlloc, List.map_map, List.getElem?_map]
  cases made[k]? with
  | none => rfl
  | some out => exact congrArg some (Utf8.filter_encode out)

theorem returned_getslice (h : σ.bytes (some p) = some (Utf8.encode text)) {slice : Slice}
    {out : List Char} (hslice : sliceOf text slice = some out) :
    returned (oliveStrGetslice σ (some p) slice) 0 =
      some (Utf8.encode (out.filter (· ≠ '\x00'))) := by
  unfold oliveStrGetslice
  rw [fromPtr_of_bytes h, Option.bind_some, hslice, Option.map_some, returned_texts]
  rfl

theorem returned_chars (h : σ.bytes (some p) = some (Utf8.encode text)) (k : Nat) :
    returned (oliveStrChars σ (some p)) k = (text[k]?).map String.utf8EncodeChar := by
  unfold oliveStrChars
  rw [fromPtr_of_bytes h, Option.map_some, returned_strAlloc, List.getElem?_map]

theorem returned_getChecked (h : σ.bytes (some p) = some bytes) {i : Int}
    (hlo : -(bytes.length : Int) ≤ i) (hhi : i < bytes.length) :
    returned (oliveStrGetChecked σ (some p) i) 0 =
      (bytes[(position bytes.length i).toNat]?).map fun b => [b].takeWhile (· ≠ 0) := by
  unfold oliveStrGetChecked
  rw [Option.bind_some, checkedByte_of_bytes h, if_pos ⟨hlo, hhi⟩]
  cases bytes[(position bytes.length i).toNat]? with
  | none => rfl
  | some b => exact returned_charStr b

end Reads

section Slices

variable {text : List Char} {i : Int}

/-- A slice of one character; the one that ends at 0 has no place. -/
theorem sliceOf_oneAt (hlo : -(text.length : Int) ≤ i) (hhi : i < text.length) (hne : i ≠ -1) :
    sliceOf text (oneAt i) = some (text[(position text.length i).toNat]?).toList := by
  have hlt : (position text.length i).toNat < text.length := by
    unfold position
    split_ifs <;> omega
  have hbounds : sliceBounds text.length (oneAt i) =
      some (position text.length i, position text.length i + 1, 1) := by
    unfold sliceBounds oneAt position
    simp only [Bool.false_eq_true, if_false, if_true]
    rw [if_neg (by omega)]
    congr 2
    · split_ifs <;> omega
    · congr 1
      split_ifs <;> omega
  have hnext : (position text.length i + 1).toNat = (position text.length i).toNat + 1 := by
    unfold position
    split_ifs <;> omega
  unfold sliceOf
  rw [hbounds]
  simp only [Option.bind_some, if_true, hnext]
  rw [List.drop_take, Nat.add_sub_cancel_left, List.drop_eq_getElem_cons hlt, List.take_succ_cons,
    List.take_zero, List.getElem?_eq_getElem hlt]
  rfl

theorem sliceOf_onward {k : Nat} (hk : k ≤ text.length) :
    sliceOf text (onward k) = some (text.drop k) := by
  have hbounds : sliceBounds text.length (onward k) = some ((k : Int), (text.length : Int), 1) := by
    unfold sliceBounds onward
    simp only [Bool.false_eq_true, if_false, if_true]
    rw [if_neg (by omega)]
    congr 2
    split_ifs <;> omega
  unfold sliceOf
  rw [hbounds]
  simp only [Option.bind_some, if_true, Int.toNat_natCast, List.take_length]

end Slices

section Units

variable {σ : State} {p : Nat} {text : List Char}

theorem Ascii.filter (hascii : Ascii text) : text.filter (· ≠ '\x00') = text := by
  apply List.filter_eq_self.mpr
  intro c hc
  simpa using (hascii c hc).1

theorem Ascii.length_encode (hascii : Ascii text) : (Utf8.encode text).length = text.length := by
  rw [Utf8.encode_ascii fun c hc => (hascii c hc).2, List.length_map]

theorem Ascii.returned_getChecked (hascii : Ascii text)
    (h : σ.bytes (some p) = some (Utf8.encode text)) {i : Int} (hlo : -(text.length : Int) ≤ i)
    (hhi : i < text.length) :
    returned (oliveStrGetChecked σ (some p) i) 0 =
      (text[(position text.length i).toNat]?).map String.utf8EncodeChar := by
  have hlen := hascii.length_encode
  rw [RuntimeStrings.returned_getChecked h (by omega) (by omega), hlen,
    Utf8.encode_ascii fun c hc => (hascii c hc).2, List.getElem?_map]
  cases hc : text[(position text.length i).toNat]? with
  | none => rfl
  | some c =>
    obtain ⟨hne, hle⟩ := hascii c (List.mem_of_getElem? hc)
    have hbyte := Utf8.utf8EncodeChar_ascii hle
    have hb : UInt8.ofNat c.val.toNat ≠ 0 := by
      intro hzero
      have hmem : 0 ∈ String.utf8EncodeChar c := by
        rw [hbyte, hzero]
        exact List.mem_singleton_self 0
      exact hne (Utf8.zero_mem_utf8EncodeChar.mp hmem)
    simp only [Option.map_some, hbyte, List.takeWhile_cons, List.takeWhile_nil, ne_eq, hb,
      not_false_eq_true, decide_true, if_true]

theorem Ascii.returned_oneAt (hascii : Ascii text)
    (h : σ.bytes (some p) = some (Utf8.encode text)) {i : Int} (hlo : -(text.length : Int) ≤ i)
    (hhi : i < text.length) (hne : i ≠ -1) :
    returned (oliveStrGetslice σ (some p) (oneAt i)) 0 =
      returned (oliveStrGetChecked σ (some p) i) 0 := by
  have hlt : (position text.length i).toNat < text.length := by
    unfold position
    split_ifs <;> omega
  have hc := (hascii _ (List.getElem_mem hlt)).1
  rw [hascii.returned_getChecked h hlo hhi, returned_getslice h (sliceOf_oneAt hlo hhi hne),
    List.getElem?_eq_getElem hlt]
  simp only [Option.toList_some, List.filter_cons, List.filter_nil, ne_eq, hc, not_false_eq_true,
    decide_true, if_true, Utf8.encode_cons, Utf8.encode_nil, List.append_nil, Option.map_some]

theorem Ascii.startsAt {pre pat post : List Char} (hascii : Ascii text)
    (h : σ.bytes (some p) = some (Utf8.encode text)) (htext : text = pre ++ (pat ++ post)) :
    StartsAt σ p pre.length pat where
  slice := by
    have hlen : text.length = pre.length + (pat ++ post).length := by
      rw [htext, List.length_append]
    have hdrop : text.drop pre.length = pat ++ post := by
      rw [htext, List.drop_left]
    have hsub : Ascii (pat ++ post) := fun c hc =>
      hascii c (htext ▸ List.mem_append_right pre hc)
    refine ⟨post, ?_⟩
    rw [returned_getslice h (sliceOf_onward (by omega)), hdrop, hsub.filter]
  index := by
    intro j c hc
    obtain ⟨hj, -⟩ := List.getElem?_eq_some_iff.mp hc
    have hlen : text.length = pre.length + (pat.length + post.length) := by
      rw [htext, List.length_append, List.length_append]
    have hposition : (position text.length ((pre.length + j : Nat) : Int)).toNat = pre.length + j := by
      unfold position
      rw [if_neg (by omega), Int.toNat_natCast]
    have hread : text[pre.length + j]? = some c := by
      rw [htext, List.getElem?_append_right (Nat.le_add_right _ _), Nat.add_sub_cancel_left,
        List.getElem?_append_left hj, hc]
    rw [hascii.returned_getChecked h (by omega) (by omega), hposition, hread]
    rfl

theorem Ascii.finds (hascii : Ascii text) (h : σ.bytes (some p) = some (Utf8.encode text))
    {locate : List Char → List Char → Option Nat}
    (hlocate : ∀ pat, pat <:+: text → ∃ byte, locate pat text = some byte ∧ Located pat text byte) :
    Finds σ p (search σ locate) text := by
  intro q pat hpat hinfix
  obtain ⟨byte, hbyte, hat⟩ := hlocate pat hinfix
  obtain ⟨pre, post, htext, hbefore⟩ := hat.charsBefore
  refine ⟨pre.length, ?_, hascii.startsAt h htext⟩
  unfold search
  rw [asStr_of_bytes h, hpat]
  simp only [hbyte, hbefore, Option.map_some]

theorem oneUnit_of_ascii (hascii : Ascii text) (h : σ.bytes (some p) = some (Utf8.encode text)) :
    OneUnit σ p text := by
  have hcount := charCount_of_bytes h
  have hlen := hascii.length_encode
  refine ⟨?_, ?_, ?_, hascii.finds h fun _ => findByte_located,
    hascii.finds h fun _ => rfindByte_located⟩
  · intro i n hn
    cases hcount.symm.trans hn
    rw [getChecked_isSome h, hlen]
  · intro i n hn haccepted
    cases hcount.symm.trans hn
    rw [getChecked_isSome h, hlen] at haccepted
    obtain ⟨hlo, hhi⟩ := haccepted
    constructor
    · have hsame : position text.length (position text.length i) = position text.length i := by
        unfold position
        split_ifs <;> omega
      have hbounds : 0 ≤ position text.length i ∧ position text.length i < text.length := by
        unfold position
        split_ifs <;> omega
      rw [hascii.returned_oneAt h (by omega) hbounds.2 (by omega),
        hascii.returned_getChecked h (by omega) hbounds.2, hsame,
        hascii.returned_getChecked h hlo hhi]
    · intro hne
      exact (hascii.returned_oneAt h hlo hhi hne).symm
  · intro i n hn haccepted
    cases hcount.symm.trans hn
    rw [getChecked_isSome h, hlen] at haccepted
    rw [hascii.returned_getChecked h haccepted.1 haccepted.2, returned_chars h]

theorem ascii_of_oneUnit (hunit : OneUnit σ p text)
    (h : σ.bytes (some p) = some (Utf8.encode text)) : Ascii text := by
  have hcount := charCount_of_bytes h
  have hle := Utf8.length_le_encode text
  -- an index past the last character would be accepted
  have hlen : (Utf8.encode text).length = text.length := by
    by_contra hne
    have haccepted := (getChecked_isSome h text.length).mpr ⟨by omega, by omega⟩
    have hin := (hunit.accepted _ _ hcount).mp haccepted
    omega
  have hsmall := Utf8.ascii_of_length hlen
  intro c hc
  refine ⟨?_, hsmall c hc⟩
  intro hzero
  obtain ⟨k, hk⟩ := List.getElem?_of_mem hc
  obtain ⟨hlt, -⟩ := List.getElem?_eq_some_iff.mp hk
  have hposition : (position text.length (k : Int)).toNat = k := by
    unfold position
    rw [if_neg (by omega), Int.toNat_natCast]
  have hpositionBytes : (position (Utf8.encode text).length (k : Int)).toNat = k := by
    rw [hlen, hposition]
  have haccepted := (getChecked_isSome h k).mpr ⟨by omega, by omega⟩
  have hchars := hunit.chars _ _ hcount haccepted
  rw [RuntimeStrings.returned_getChecked h (by omega) (by omega), hpositionBytes,
    Utf8.encode_ascii hsmall, returned_chars h, hposition, List.getElem?_map, hk, hzero] at hchars
  exact absurd hchars (by decide)

/-- The accesses to a string count in one unit exactly when all its characters are ASCII. -/
theorem str_access_unit_iff (σ : State) (p : Nat) (text : List Char)
    (h : σ.bytes (some p) = some (Utf8.encode text)) : OneUnit σ p text ↔ Ascii text :=
  ⟨fun hunit => ascii_of_oneUnit hunit h, fun hascii => oneUnit_of_ascii hascii h⟩

theorem str_access_unit_plain : OneUnit (start ["ab".toList]) 0 "ab".toList :=
  (str_access_unit_iff _ _ _ (by decide)).mpr (by decide)

/-- `"é"[0]` is half a letter, and `"é"[1]` is accepted. -/
theorem str_access_counts_bytes : ¬ OneUnit (start ["é".toList]) 0 "é".toList := by
  intro hunit
  have haccepted : (oliveStrGetChecked (start ["é".toList]) (some 0) 1).isSome = true := by decide
  have hin := (hunit.accepted 1 1 (by decide)).mp haccepted
  omega

end Units

end RuntimeStrings

end Olive
