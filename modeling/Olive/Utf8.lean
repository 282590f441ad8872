import Mathlib.Data.List.Basic
import Mathlib.Data.List.TakeWhile

/-! UTF-8 on lists of bytes. A text is the list of its scalar values. -/

namespace Utf8

/-- The bytes of a text. -/
def encode (text : List Char) : List UInt8 :=
  text.flatMap String.utf8EncodeChar

def Valid (bytes : List UInt8) : Prop :=
  ∃ text, bytes = encode text

def replacement : Char := '\uFFFD'

/-- The scalar value that the bytes begin with. -/
def first? (bytes : List UInt8) : Option Char :=
  bytes.toByteArray.utf8DecodeChar? 0

def isTail (b : UInt8) : Bool :=
  0x80 ≤ b && b ≤ 0xBF

/-- Whether a byte may stand second, after the lead byte of three or four. -/
def isSecond (lead b : UInt8) : Bool :=
  if lead = 0xE0 then 0xA0 ≤ b && b ≤ 0xBF
  else if lead = 0xED then 0x80 ≤ b && b ≤ 0x9F
  else if lead = 0xF0 then 0x90 ≤ b && b ≤ 0xBF
  else if lead = 0xF4 then 0x80 ≤ b && b ≤ 0x8F
  else (0xE1 ≤ lead && lead ≤ 0xF3) && isTail b

/-- How many bytes one replacement character stands for, where no scalar value begins. -/
def invalidLength : List UInt8 → Nat
  | lead :: second :: rest =>
    if isSecond lead second then
      match rest with
      | third :: _ => if 0xF0 ≤ lead && isTail third then 3 else 2
      | [] => 2
    else 1
  | _ => 1

def decodeLossyAux : Nat → List UInt8 → List Char
  | 0, _ | _ + 1, [] => []
  | fuel + 1, b :: bytes =>
    match first? (b :: bytes) with
    | some c => c :: decodeLossyAux fuel ((b :: bytes).drop c.utf8Size)
    | none => replacement :: decodeLossyAux fuel ((b :: bytes).drop (invalidLength (b :: bytes)))

/-- Decoding that puts a replacement character for what is not a scalar value. -/
def decodeLossy (bytes : List UInt8) : List Char :=
  decodeLossyAux bytes.length bytes

def decodeAux : Nat → List UInt8 → Option (List Char)
  | _, [] => some []
  | 0, _ :: _ => none
  | fuel + 1, b :: bytes =>
    (first? (b :: bytes)).bind fun c =>
      (decodeAux fuel ((b :: bytes).drop c.utf8Size)).map (c :: ·)

def decode (bytes : List UInt8) : Option (List Char) :=
  decodeAux bytes.length bytes

@[simp] theorem encode_nil : encode [] = [] := rfl

@[simp] theorem encode_cons (c : Char) (text : List Char) :
    encode (c :: text) = String.utf8EncodeChar c ++ encode text := by
  simp [encode]

@[simp] theorem encode_append (a b : List Char) : encode (a ++ b) = encode a ++ encode b := by
  simp [encode]

theorem valid_encode (text : List Char) : Valid (encode text) :=
  ⟨text, rfl⟩

@[simp] theorem Valid.nil : Valid [] :=
  ⟨[], rfl⟩

theorem Valid.append {a b : List UInt8} (ha : Valid a) (hb : Valid b) : Valid (a ++ b) := by
  obtain ⟨ta, rfl⟩ := ha
  obtain ⟨tb, rfl⟩ := hb
  exact ⟨ta ++ tb, (encode_append ta tb).symm⟩

theorem first?_encode (c : Char) (bytes : List UInt8) :
    first? (String.utf8EncodeChar c ++ bytes) = some c := by
  unfold first?
  rw [List.toByteArray_append]
  exact ByteArray.utf8DecodeChar?_utf8EncodeChar_append

theorem first?_eq_some {bytes : List UInt8} {c : Char} (h : first? bytes = some c) :
    ∃ rest, bytes = String.utf8EncodeChar c ++ rest := by
  obtain ⟨rest, hrest⟩ := ByteArray.exists_of_utf8DecodeChar?_eq_some h
  refine ⟨rest.data.toList, ?_⟩
  have hdata := congrArg (fun b : ByteArray => b.data.toList) hrest
  simpa [ByteArray.data_append, List.data_toByteArray] using hdata

theorem drop_encoded (c : Char) (rest : List UInt8) :
    (String.utf8EncodeChar c ++ rest).drop c.utf8Size = rest := by
  rw [← String.length_utf8EncodeChar c]
  exact List.drop_left

theorem decodeAux_sound {fuel : Nat} {bytes : List UInt8} {text : List Char}
    (h : decodeAux fuel bytes = some text) : bytes = encode text := by
  induction fuel generalizing bytes text with
  | zero =>
    cases bytes with
    | nil => cases h; rfl
    | cons b bytes => cases h
  | succ fuel ih =>
    cases bytes with
    | nil => cases h; rfl
    | cons b bytes =>
      obtain ⟨c, hc, h⟩ := Option.bind_eq_some_iff.mp h
      obtain ⟨later, hlater, rfl⟩ := Option.map_eq_some_iff.mp h
      obtain ⟨rest, hrest⟩ := first?_eq_some hc
      rw [hrest, drop_encoded] at hlater
      rw [hrest, encode_cons, ih hlater]

theorem encode_cons_ne_nil (c : Char) (text : List Char) : encode (c :: text) ≠ [] := by
  simp [String.utf8EncodeChar_ne_nil]

theorem length_encode_cons (c : Char) (text : List Char) :
    (encode text).length < (encode (c :: text)).length := by
  have hsize := c.utf8Size_pos
  rw [encode_cons, List.length_append, String.length_utf8EncodeChar]
  omega

theorem decodeAux_encode {fuel : Nat} {text : List Char} (h : (encode text).length ≤ fuel) :
    decodeAux fuel (encode text) = some text := by
  induction text generalizing fuel with
  | nil => cases fuel <;> rfl
  | cons c text ih =>
    have hlt := length_encode_cons c text
    obtain ⟨b, bytes, hbytes⟩ := List.exists_cons_of_ne_nil (encode_cons_ne_nil c text)
    obtain ⟨fuel, rfl⟩ := Nat.exists_eq_add_one_of_ne_zero (show fuel ≠ 0 by omega)
    have hfirst : first? (b :: bytes) = some c := by
      rw [← hbytes, encode_cons]
      exact first?_encode c (encode text)
    have hdrop : (b :: bytes).drop c.utf8Size = encode text := by
      rw [← hbytes, encode_cons]
      exact drop_encoded c (encode text)
    rw [hbytes, decodeAux, hfirst, Option.bind_some, hdrop, ih (by omega)]
    rfl

theorem decode_encode (text : List Char) : decode (encode text) = some text :=
  decodeAux_encode (Nat.le_refl _)

theorem decode_eq_some {bytes : List UInt8} {text : List Char} :
    decode bytes = some text ↔ bytes = encode text := by
  constructor
  · exact decodeAux_sound
  · intro h
    rw [h]
    exact decode_encode text

theorem valid_iff_decode {bytes : List UInt8} : Valid bytes ↔ (decode bytes).isSome = true := by
  constructor
  · intro ⟨text, htext⟩
    rw [decode_eq_some.mpr htext]
    rfl
  · intro h
    obtain ⟨text, htext⟩ := Option.isSome_iff_exists.mp h
    exact ⟨text, decode_eq_some.mp htext⟩

instance (bytes : List UInt8) : Decidable (Valid bytes) :=
  decidable_of_iff _ valid_iff_decode.symm

theorem decodeLossyAux_encode {fuel : Nat} {text : List Char} (h : (encode text).length ≤ fuel) :
    decodeLossyAux fuel (encode text) = text := by
  induction text generalizing fuel with
  | nil => cases fuel <;> rfl
  | cons c text ih =>
    have hlt := length_encode_cons c text
    obtain ⟨b, bytes, hbytes⟩ := List.exists_cons_of_ne_nil (encode_cons_ne_nil c text)
    obtain ⟨fuel, rfl⟩ := Nat.exists_eq_add_one_of_ne_zero (show fuel ≠ 0 by omega)
    have hfirst : first? (b :: bytes) = some c := by
      rw [← hbytes, encode_cons]
      exact first?_encode c (encode text)
    have hdrop : (b :: bytes).drop c.utf8Size = encode text := by
      rw [← hbytes, encode_cons]
      exact drop_encoded c (encode text)
    rw [hbytes, decodeLossyAux, hfirst]
    simp only [hdrop]
    rw [ih (by omega)]

/-- Of bytes that are valid, the lossy decoding is the text. -/
theorem decodeLossy_encode (text : List Char) : decodeLossy (encode text) = text :=
  decodeLossyAux_encode (Nat.le_refl _)

example : decodeLossy [0x61, 0xC3, 0xE2, 0x82, 0x62] = ['a', replacement, replacement, 'b'] := by decide

theorem le_ofNat {n : Nat} (hlo : 0x80 ≤ n) (hhi : n < 256) : 0x80 ≤ UInt8.ofNat n := by
  rw [UInt8.le_iff_toNat_le, UInt8.toNat_ofNat', Nat.mod_eq_of_lt (by omega)]
  exact hlo

/-- A scalar value from U+0080 on has no byte below 0x80. -/
theorem le_of_mem_utf8EncodeChar {c : Char} (hc : 0x7f < c.val.toNat) {b : UInt8}
    (hb : b ∈ String.utf8EncodeChar c) : 0x80 ≤ b := by
  unfold String.utf8EncodeChar at hb
  rw [if_neg (by omega)] at hb
  split at hb
  next =>
    rcases List.mem_pair.mp hb with rfl | rfl <;> exact le_ofNat (by omega) (by omega)
  next =>
    split at hb
    next =>
      simp only [List.mem_cons, List.not_mem_nil, or_false] at hb
      rcases hb with rfl | rfl | rfl <;> exact le_ofNat (by omega) (by omega)
    next =>
      simp only [List.mem_cons, List.not_mem_nil, or_false] at hb
      rcases hb with rfl | rfl | rfl | rfl <;> exact le_ofNat (by omega) (by omega)

theorem utf8EncodeChar_ascii {c : Char} (hc : c.val.toNat ≤ 0x7f) :
    String.utf8EncodeChar c = [UInt8.ofNat c.val.toNat] := by
  unfold String.utf8EncodeChar
  rw [if_pos hc]

theorem encode_ascii {text : List Char} (h : ∀ c ∈ text, c.val.toNat ≤ 0x7f) :
    encode text = text.map fun c => UInt8.ofNat c.val.toNat := by
  induction text with
  | nil => rfl
  | cons c text ih =>
    rw [encode_cons, utf8EncodeChar_ascii (h c List.mem_cons_self),
      ih fun d hd => h d (List.mem_cons_of_mem c hd)]
    rfl

theorem length_le_encode (text : List Char) : text.length ≤ (encode text).length := by
  induction text with
  | nil => exact Nat.le_refl 0
  | cons c text ih =>
    have hmore := length_encode_cons c text
    rw [List.length_cons]
    omega

/-- A text with as many bytes as characters is ASCII. -/
theorem ascii_of_length {text : List Char} (h : (encode text).length = text.length) :
    ∀ c ∈ text, c.val.toNat ≤ 0x7f := by
  induction text with
  | nil =>
    intro c hc
    cases hc
  | cons c text ih =>
    have hpos := c.utf8Size_pos
    have hle := length_le_encode text
    rw [encode_cons, List.length_append, String.length_utf8EncodeChar, List.length_cons] at h
    intro d hd
    rcases List.mem_cons.mp hd with rfl | hd
    · have hone : d.utf8Size = 1 := by omega
      exact UInt32.le_iff_toNat_le.mp (Char.utf8Size_eq_one_iff.mp hone)
    · exact ih (by omega) d hd

/-- One byte is a text exactly when it is ASCII. -/
theorem valid_singleton {b : UInt8} : Valid [b] ↔ b < 0x80 := by
  constructor
  · intro ⟨text, htext⟩
    cases text with
    | nil => cases htext
    | cons c text =>
      have hlen := congrArg List.length htext
      rw [encode_cons, List.length_append, List.length_singleton] at hlen
      have hne := List.length_pos_of_ne_nil (String.utf8EncodeChar_ne_nil (c := c))
      by_cases hc : c.val.toNat ≤ 0x7f
      · rw [encode_cons, utf8EncodeChar_ascii hc, List.cons_append] at htext
        rw [(List.cons.inj htext).1]
        rw [UInt8.lt_iff_toNat_lt, UInt8.toNat_ofNat']
        show c.val.toNat % 2 ^ 8 < 128
        omega
      · exfalso
        have hone : c.utf8Size = 1 := by
          rw [String.length_utf8EncodeChar] at hne hlen
          omega
        have hle := Char.utf8Size_eq_one_iff.mp hone
        rw [UInt32.le_iff_toNat_le] at hle
        exact hc hle
  · intro hb
    have hlt : b.toNat < 128 := UInt8.lt_iff_toNat_lt.mp hb
    refine ⟨[Char.ofNat b.toNat], ?_⟩
    have hval : (Char.ofNat b.toNat).val.toNat = b.toNat := by
      rw [Char.ofNat, dif_pos (Or.inl (by omega))]
      rfl
    rw [encode_cons, utf8EncodeChar_ascii (by omega), hval, UInt8.ofNat_toNat]
    rfl

/-- Where the nul byte stands: it is the nul character. -/
theorem zero_mem_utf8EncodeChar {c : Char} : 0 ∈ String.utf8EncodeChar c ↔ c = '\x00' := by
  constructor
  · intro h
    by_cases hc : c.val.toNat ≤ 0x7f
    · rw [utf8EncodeChar_ascii hc, List.mem_singleton] at h
      have hnat := congrArg UInt8.toNat h
      rw [UInt8.toNat_ofNat', Nat.mod_eq_of_lt (by omega)] at hnat
      apply Char.ext
      apply UInt32.toNat_inj.mp
      exact hnat.symm
    · have hle := le_of_mem_utf8EncodeChar (by omega) h
      exact absurd hle (by decide)
  · intro h
    rw [h]
    decide

theorem filter_utf8EncodeChar (c : Char) :
    (String.utf8EncodeChar c).filter (· ≠ 0) = if c = '\x00' then [] else String.utf8EncodeChar c := by
  split
  next h =>
    rw [h]
    decide
  next h =>
    apply List.filter_eq_self.mpr
    intro b hb
    have hne : b ≠ 0 := fun hzero => h (zero_mem_utf8EncodeChar.mp (hzero ▸ hb))
    simpa using hne

/-- Dropping the nul bytes drops the nul characters. -/
theorem filter_encode (text : List Char) :
    (encode text).filter (· ≠ 0) = encode (text.filter (· ≠ '\x00')) := by
  induction text with
  | nil => rfl
  | cons c text ih =>
    rw [encode_cons, List.filter_append, ih, filter_utf8EncodeChar, List.filter_cons]
    by_cases h : c = '\x00'
    · simp [h]
    · simp [h]

theorem Valid.filter {bytes : List UInt8} (h : Valid bytes) : Valid (bytes.filter (· ≠ 0)) := by
  obtain ⟨text, rfl⟩ := h
  exact ⟨_, filter_encode text⟩

/-- What stands before the first nul byte is what stands before the first nul character. -/
theorem takeWhile_encode (text : List Char) :
    (encode text).takeWhile (· ≠ 0) = encode (text.takeWhile (· ≠ '\x00')) := by
  induction text with
  | nil => rfl
  | cons c text ih =>
    rw [encode_cons, List.takeWhile_cons]
    by_cases h : c = '\x00'
    · rw [h]
      rfl
    · have hall : ∀ b ∈ String.utf8EncodeChar c, decide (b ≠ 0) = true := by
        intro b hb
        have hne : b ≠ 0 := fun hzero => h (zero_mem_utf8EncodeChar.mp (hzero ▸ hb))
        simpa using hne
      rw [List.takeWhile_append_of_pos hall, ih]
      simp [h]

theorem Valid.takeWhile {bytes : List UInt8} (h : Valid bytes) : Valid (bytes.takeWhile (· ≠ 0)) := by
  obtain ⟨text, rfl⟩ := h
  exact ⟨_, takeWhile_encode text⟩

end Utf8
