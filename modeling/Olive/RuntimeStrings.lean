import Mathlib.Algebra.Group.Int.Defs
import Mathlib.Algebra.Group.Nat.Defs
import Mathlib.Data.Nat.Log
import Olive.StrMethods
import Olive.Utf8

/-! The string operations of the runtime, over the strings and the byte buffers that a program
holds. -/

namespace Olive

namespace RuntimeStrings

open StrMethods

/-- The encodings that come from other crates. -/
structure Env where
  unicode : Unicode
  hexEncode : List UInt8 → List Char
  base64Encode : List UInt8 → List Char
  base64Decode : List Char → Option (List UInt8)

/-- A string in memory. A slab string has a capacity and stores its length; of the others the
first nul ends the content. -/
structure Str where
  heap : Option Nat
  body : List UInt8

/-- `olive_str_to_bytes`. -/
def Str.bytes (s : Str) : List UInt8 :=
  if s.heap.isSome then s.body else s.body.takeWhile (· ≠ 0)

/-- A pointer, none for null. -/
abbrev Ref := Option Nat

/-- The strings, none for one that was freed, and the buffers. -/
structure State where
  strs : List (Option Str)
  bufs : List (List UInt8)

def State.str (σ : State) (i : Nat) : Option Str :=
  (σ.strs[i]?).join

/-- `olive_str_to_bytes`; there is no run where the pointer leads nowhere. -/
def State.bytes (σ : State) : Ref → Option (List UInt8)
  | none => some []
  | some i => (σ.str i).map Str.bytes

/-- `olive_str_from_ptr`. -/
def State.fromPtr (σ : State) (s : Ref) : Option (List Char) :=
  (σ.bytes s).map Utf8.decodeLossy

/-- `olive_str_as_str`. -/
def State.asStr (σ : State) : Ref → Option (List Char)
  | none => none
  | some i => (σ.bytes (some i)).bind Utf8.decode

/-- The memory of a string, with the terminator. -/
def State.memory (σ : State) (i : Nat) : Option (List UInt8) :=
  (σ.str i).map fun s => s.body ++ [0]

def classBytes (need : Nat) : Nat :=
  max (2 ^ Nat.clog 2 need) 8

def slabStr (bytes : List UInt8) : Str :=
  ⟨some (classBytes (bytes.length + 1)), bytes⟩

/-- What a call leaves, with the pointers that it returns. -/
abbrev Outcome := Option (State × List Ref)

/-- One `str_alloc` for each of the contents. -/
def State.strAlloc (σ : State) (made : List (List UInt8)) : State × List Ref :=
  ({ σ with strs := σ.strs ++ made.map fun bytes => some (slabStr bytes) },
    (List.range made.length).map fun k => some (σ.strs.length + k))

/-- `olive_str_internal` for each of the contents: no nul byte stays. -/
def State.strInternal (σ : State) (made : List (List UInt8)) : State × List Ref :=
  σ.strAlloc (made.map fun bytes => bytes.filter (· ≠ 0))

def State.texts (σ : State) (made : List (List Char)) : State × List Ref :=
  σ.strInternal (made.map Utf8.encode)

/-- `char_str`. -/
def State.charStr (σ : State) (byte : UInt8) : State × List Ref :=
  ({ σ with strs := σ.strs ++ [some ⟨none, [byte]⟩] }, [some σ.strs.length])

/-- The functions that answer null for a null receiver. -/
def unlessNull (σ : State) (s : Ref) (answer : Outcome) : Outcome :=
  match s with
  | none => some (σ, [none])
  | some _ => answer

/-- A function of the receiver's text. -/
def textOp (σ : State) (s : Ref) (f : List Char → List (List Char)) : Outcome :=
  (σ.fromPtr s).map fun text => σ.texts (f text)

/-- A function of the texts of the receiver and an argument. -/
def textOp2 (σ : State) (s a : Ref) (f : List Char → List Char → List (List Char)) : Outcome :=
  (σ.fromPtr s).bind fun text => (σ.fromPtr a).map fun arg => σ.texts (f text arg)

section Functions

variable (env : Env) (σ : State)

/-- The byte that `olive_str_get` reads. -/
def getByte (s : Nat) (i : Int) : Option UInt8 :=
  (σ.memory s).bind fun memory => if i < 0 then none else memory[i.toNat]?

def oliveStrGet (s : Ref) (i : Int) : Outcome :=
  match s with
  | none => some (σ, [none])
  | some p => (getByte σ p i).map fun byte => if byte = 0 then (σ, [none]) else σ.charStr byte

def oliveStrChar (s : Ref) (i : Int) : Outcome :=
  oliveStrGet σ s i

/-- The byte that `olive_str_get_checked` reads, none where it panics. -/
def checkedByte (s : Nat) (i : Int) : Option UInt8 :=
  (σ.bytes (some s)).bind fun bytes =>
    let len : Int := bytes.length
    let idx := if i < 0 then i + len else i
    if idx < 0 ∨ len ≤ idx then none else getByte σ s idx

def oliveStrGetChecked (s : Ref) (i : Int) : Outcome :=
  s.bind fun p => (checkedByte σ p i).map σ.charStr

def oliveStrGetslice (s : Ref) (slice : Slice) : Outcome :=
  match s with
  | none => some (σ.texts [[]])
  | some _ =>
    (σ.fromPtr s).bind fun text => (sliceOf text slice).map fun out => σ.texts [out]

/-- `olive_str_slice`, by bytes. -/
def oliveStrSlice (s : Ref) (start stop : Int) : Outcome :=
  (σ.bytes s).map fun bytes =>
    if 0 ≤ start ∧ start ≤ stop ∧ stop ≤ bytes.length then
      let sub := (bytes.take stop.toNat).drop start.toNat
      match Utf8.decode sub with
      | some valid => σ.texts [valid]
      | none => σ.texts [Utf8.decodeLossy sub]
    else (σ, [none])

def oliveStrTrim (s : Ref) : Outcome :=
  unlessNull σ s (textOp σ s fun text => [trimMatches env.unicode.isWhitespace text])

def oliveStrTrimStart (s : Ref) : Outcome :=
  unlessNull σ s (textOp σ s fun text => [trimStartMatches env.unicode.isWhitespace text])

def oliveStrTrimEnd (s : Ref) : Outcome :=
  unlessNull σ s (textOp σ s fun text => [trimEndMatches env.unicode.isWhitespace text])

def oliveStrUpper (s : Ref) : Outcome :=
  unlessNull σ s (textOp σ s fun text => [toUppercase env.unicode text])

def oliveStrLower (s : Ref) : Outcome :=
  unlessNull σ s (textOp σ s fun text => [env.unicode.strToLowercase text])

def oliveStrReplace (s pat into : Ref) : Outcome :=
  unlessNull σ s
    ((σ.fromPtr into).bind fun toStr =>
      textOp2 σ s pat fun text fromStr => [replace fromStr toStr text])

def oliveStrRepeat (s : Ref) (n : Int) : Outcome :=
  if s = none ∨ n ≤ 0 then some (σ.texts [[]])
  else textOp σ s fun text => [repeatText text n.toNat]

def oliveStrSplit (s sep : Ref) : Outcome :=
  match sep with
  | none => textOp σ s (splitWhitespace env.unicode [])
  | some _ => textOp2 σ s sep fun text sepStr => split sepStr text

/-- The elements with the separator between them. -/
def joinBytes (elements : List (List UInt8)) (sep : List UInt8) : List UInt8 :=
  (elements.intersperse sep).flatten

/-- The bytes that `olive_str_join` takes for valid. -/
def joined (list : Option (List Ref)) (sep : Ref) : Option (List UInt8) :=
  list.bind fun elements =>
    (σ.bytes sep).bind fun sepBytes =>
      (elements.mapM σ.bytes).map fun contents => joinBytes contents sepBytes

def oliveStrJoin (list : Option (List Ref)) (sep : Ref) : Outcome :=
  match list with
  | none => some (σ.texts [[]])
  | some _ => (joined σ list sep).map fun out => σ.strInternal [out]

def oliveStrSplitlines (s : Ref) : Outcome :=
  textOp σ s (lines [])

def oliveStrTitle (s : Ref) : Outcome :=
  textOp σ s fun text => [title env.unicode false text]

def oliveStrCapitalize (s : Ref) : Outcome :=
  textOp σ s fun text => [capitalize env.unicode text]

def oliveStrZfill (s : Ref) (width : Int) : Outcome :=
  textOp σ s fun text => [zfill width text]

def oliveStrLjust (s : Ref) (width : Int) (fill : Ref) : Outcome :=
  textOp2 σ s fill fun text fillText => [ljust width fillText text]

def oliveStrRjust (s : Ref) (width : Int) (fill : Ref) : Outcome :=
  textOp2 σ s fill fun text fillText => [rjust width fillText text]

def oliveStrCenter (s : Ref) (width : Int) (fill : Ref) : Outcome :=
  textOp2 σ s fill fun text fillText => [center width fillText text]

def oliveStrRemoveprefix (s pat : Ref) : Outcome :=
  textOp2 σ s pat fun text pre => [ removeprefix pre text]

def oliveStrRemovesuffix (s pat : Ref) : Outcome :=
  textOp2 σ s pat fun text suf => [removesuffix suf text]

def oliveStrTrimChars (s chars : Ref) : Outcome :=
  textOp2 σ s chars fun text set => [trimMatches set.contains text]

def oliveStrTrimStartChars (s chars : Ref) : Outcome :=
  textOp2 σ s chars fun text set => [trimStartMatches set.contains text]

def oliveStrTrimEndChars (s chars : Ref) : Outcome :=
  textOp2 σ s chars fun text set => [trimEndMatches set.contains text]

def oliveStrPartition (s sep : Ref) : Outcome :=
  textOp2 σ s sep fun text pat => partition pat text

/-- The parts of a template with the arguments between them, as far as these go. -/
def interleave : List (List Char) → List (List UInt8) → List UInt8
  | [], _ => []
  | [part], _ => Utf8.encode part
  | part :: parts, [] => Utf8.encode part ++ interleave parts []
  | part :: parts, arg :: args => Utf8.encode part ++ arg ++ interleave parts args

/-- The bytes that `olive_str_fmt` takes for valid. -/
def formatted (template : Ref) (args : Option (List Ref)) : Option (List UInt8) :=
  (σ.asStr template).bind fun tmpl =>
    ((args.getD []).mapM σ.bytes).map fun argBytes => interleave (split ['{', '}'] tmpl) argBytes

def oliveStrFmt (template : Ref) (args : Option (List Ref)) : Outcome :=
  match template with
  | none => some (σ.texts [[]])
  | some _ =>
    match σ.asStr template with
    | some _ => (formatted σ template args).map fun out => σ.strInternal [out]
    | none => textOp σ template fun text => [text]

def oliveStrChars (s : Ref) : Outcome :=
  match s with
  | none => some (σ, [])
  | some _ => (σ.fromPtr s).map fun text => σ.strAlloc (text.map String.utf8EncodeChar)

def oliveStrGraphemes (s : Ref) : Outcome :=
  match s with
  | none => some (σ, [])
  | some _ => textOp σ s env.unicode.graphemes

def oliveStrConcat (l r : Ref) : Outcome :=
  (σ.bytes l).bind fun lBytes => (σ.bytes r).map fun rBytes => σ.strAlloc [lBytes ++ rBytes]

/-- `str_free`; a string outside the slab stays. -/
def State.strFree (i : Nat) : State :=
  match σ.str i with
  | some ⟨some _, _⟩ => { σ with strs := σ.strs.set i none }
  | _ => σ

def oliveStrConcatMove (l r : Ref) : Outcome :=
  (σ.bytes l).bind fun lBytes =>
    (σ.bytes r).map fun rBytes =>
      match l with
      | none => σ.strAlloc [lBytes ++ rBytes]
      | some i =>
        match (σ.str i).bind Str.heap with
        | some cap =>
          if classBytes ((lBytes ++ rBytes).length + 1) ≤ cap then
            ({ σ with strs := σ.strs.set i (some ⟨some cap, lBytes ++ rBytes⟩) }, [some i])
          else
            let (after, made) := σ.strAlloc [lBytes ++ rBytes]
            (after.strFree i, made)
        | none => σ.strAlloc [lBytes ++ rBytes]

def State.buf (b : Ref) : List UInt8 :=
  match b with
  | none => []
  | some i => (σ.bufs[i]?).getD []

def newBuf (data : List UInt8) : Outcome :=
  some ({ σ with bufs := σ.bufs ++ [data] }, [some σ.bufs.length])

/-- A write into a buffer; on a null one there is none. -/
def writeBuf (b : Ref) (f : List UInt8 → List UInt8) : Outcome :=
  match b with
  | none => some (σ, [])
  | some i => some ({ σ with bufs := σ.bufs.modify i f }, [])

def oliveBufNew (_cap : Int) : Outcome :=
  newBuf σ []

def oliveBufNewZeroed (len : Int) : Outcome :=
  newBuf σ (List.replicate len.toNat 0)

def oliveBufFromStr (s : Ref) : Outcome :=
  (σ.fromPtr s).bind fun text => newBuf σ (Utf8.encode text)

/-- The low bytes of a word, the least first. -/
def toLeBytes (n : Nat) (val : Int) : List UInt8 :=
  (List.range n).map fun k => UInt8.ofNat ((val / 256 ^ k) % 256).toNat

/-- `olive_buf_push` and its forms for two bytes and for four. -/
def oliveBufPush (b : Ref) (n : Nat) (val : Int) : Outcome :=
  writeBuf σ b fun data => data ++ toLeBytes n val

def oliveBufSet (b : Ref) (idx val : Int) : Outcome :=
  writeBuf σ b fun data => if idx < 0 then data else data.set idx.toNat (UInt8.ofNat (val % 256).toNat)

/-- `write_bytes`. The buffer grows to the end of the data. -/
def writeBytes (b : Ref) (offset : Int) (data : List UInt8) : Outcome :=
  if offset < 0 ∨ 2 ^ 63 ≤ offset + data.length then some (σ, [])
  else
    writeBuf σ b fun old =>
      let off := offset.toNat
      let grown := old ++ List.replicate (off + data.length - old.length) 0
      grown.take off ++ data ++ grown.drop (off + data.length)

/-- The writes of words, of two, four or eight bytes and of either order. -/
def oliveBufWrite (b : Ref) (n : Nat) (le : Bool) (offset val : Int) : Outcome :=
  writeBytes σ b offset (if le then toLeBytes n val else (toLeBytes n val).reverse)

def oliveBufToStr (b : Ref) : Outcome :=
  some (σ.texts [Utf8.decodeLossy (σ.buf b)])

def oliveBufToHex (b : Ref) : Outcome :=
  some (σ.texts [if b = none then [] else env.hexEncode (σ.buf b)])

def oliveBufConcat (a b : Ref) : Outcome :=
  newBuf σ (σ.buf a ++ σ.buf b)

def oliveBufSlice (b : Ref) (start stop : Int) : Outcome :=
  newBuf σ (((σ.buf b).take stop.toNat).drop start.toNat)

def oliveBufGetslice (b : Ref) (slice : Slice) : Outcome :=
  match b with
  | none => newBuf σ []
  | some _ => (sliceOf (σ.buf b) slice).bind (newBuf σ)

def oliveBufToBase64 (b : Ref) : Outcome :=
  some (σ.texts [if b = none then [] else env.base64Encode (σ.buf b)])

def oliveBufFromBase64 (s : Ref) : Outcome :=
  match s with
  | none => some (σ, [none])
  | some _ =>
    (σ.fromPtr s).bind fun text =>
      match env.base64Decode (trimMatches env.unicode.isWhitespace text) with
      | some data => newBuf σ data
      | none => some (σ, [none])

end Functions

end RuntimeStrings

end Olive
