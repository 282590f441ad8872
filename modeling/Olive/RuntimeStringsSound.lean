import Olive.RuntimeStrings

/-! Runs of string operations: the strings stay UTF-8 exactly as long as the indexed bytes are
ASCII. -/

namespace Olive

namespace RuntimeStrings

open StrMethods

inductive StrOp where
  | get (s : Ref) (i : Int)
  | char (s : Ref) (i : Int)
  | getChecked (s : Ref) (i : Int)
  | getslice (s : Ref) (slice : Slice)
  | slice (s : Ref) (start stop : Int)
  | trim (s : Ref)
  | trimStart (s : Ref)
  | trimEnd (s : Ref)
  | upper (s : Ref)
  | lower (s : Ref)
  | replace (s pat into : Ref)
  | repeatN (s : Ref) (n : Int)
  | split (s sep : Ref)
  | join (list : Option (List Ref)) (sep : Ref)
  | splitlines (s : Ref)
  | title (s : Ref)
  | capitalize (s : Ref)
  | zfill (s : Ref) (width : Int)
  | ljust (s : Ref) (width : Int) (fill : Ref)
  | rjust (s : Ref) (width : Int) (fill : Ref)
  | center (s : Ref) (width : Int) (fill : Ref)
  | removeLeading (s pat : Ref)
  | removeTrailing (s pat : Ref)
  | trimChars (s chars : Ref)
  | trimStartChars (s chars : Ref)
  | trimEndChars (s chars : Ref)
  | partition (s sep : Ref)
  | fmt (template : Ref) (args : Option (List Ref))
  | chars (s : Ref)
  | graphemes (s : Ref)
  | concat (l r : Ref)
  | concatMove (l r : Ref)
  | bufNew (cap : Int)
  | bufNewZeroed (len : Int)
  | bufFromStr (s : Ref)
  | bufPush (b : Ref) (n : Nat) (val : Int)
  | bufSet (b : Ref) (idx val : Int)
  | bufWrite (b : Ref) (n : Nat) (le : Bool) (offset val : Int)
  | bufToStr (b : Ref)
  | bufToHex (b : Ref)
  | bufConcat (a b : Ref)
  | bufSlice (b : Ref) (start stop : Int)
  | bufGetslice (b : Ref) (slice : Slice)
  | bufToBase64 (b : Ref)
  | bufFromBase64 (s : Ref)

def step (env : Env) (σ : State) : StrOp → Outcome
  | .get s i => oliveStrGet σ s i
  | .char s i => oliveStrChar σ s i
  | .getChecked s i => oliveStrGetChecked σ s i
  | .getslice s slice => oliveStrGetslice σ s slice
  | .slice s start stop => oliveStrSlice σ s start stop
  | .trim s => oliveStrTrim env σ s
  | .trimStart s => oliveStrTrimStart env σ s
  | .trimEnd s => oliveStrTrimEnd env σ s
  | .upper s => oliveStrUpper env σ s
  | .lower s => oliveStrLower env σ s
  | .replace s pat into => oliveStrReplace σ s pat into
  | .repeatN s n => oliveStrRepeat σ s n
  | .split s sep => oliveStrSplit env σ s sep
  | .join list sep => oliveStrJoin σ list sep
  | .splitlines s => oliveStrSplitlines σ s
  | .title s => oliveStrTitle env σ s
  | .capitalize s => oliveStrCapitalize env σ s
  | .zfill s width => oliveStrZfill σ s width
  | .ljust s width fill => oliveStrLjust σ s width fill
  | .rjust s width fill => oliveStrRjust σ s width fill
  | .center s width fill => oliveStrCenter σ s width fill
  | .removeLeading s pat => oliveStrRemoveprefix σ s pat
  | .removeTrailing s pat => oliveStrRemovesuffix σ s pat
  | .trimChars s chars => oliveStrTrimChars σ s chars
  | .trimStartChars s chars => oliveStrTrimStartChars σ s chars
  | .trimEndChars s chars => oliveStrTrimEndChars σ s chars
  | .partition s sep => oliveStrPartition σ s sep
  | .fmt template args => oliveStrFmt σ template args
  | .chars s => oliveStrChars σ s
  | .graphemes s => oliveStrGraphemes env σ s
  | .concat l r => oliveStrConcat σ l r
  | .concatMove l r => oliveStrConcatMove σ l r
  | .bufNew cap => oliveBufNew σ cap
  | .bufNewZeroed len => oliveBufNewZeroed σ len
  | .bufFromStr s => oliveBufFromStr σ s
  | .bufPush b n val => oliveBufPush σ b n val
  | .bufSet b idx val => oliveBufSet σ b idx val
  | .bufWrite b n le offset val => oliveBufWrite σ b n le offset val
  | .bufToStr b => oliveBufToStr σ b
  | .bufToHex b => oliveBufToHex env σ b
  | .bufConcat a b => oliveBufConcat σ a b
  | .bufSlice b start stop => oliveBufSlice σ b start stop
  | .bufGetslice b slice => oliveBufGetslice σ b slice
  | .bufToBase64 b => oliveBufToBase64 env σ b
  | .bufFromBase64 s => oliveBufFromBase64 env σ s

/-- The bytes that an operation converts without a check. -/
def unchecked (σ : State) : StrOp → Option (List UInt8)
  | .join list sep => joined σ list sep
  | .fmt template args => formatted σ template args
  | _ => none

/-- The single byte that an operation makes a string of. -/
def indexedByte (σ : State) : StrOp → Option UInt8
  | .get (some p) i | .char (some p) i => getByte σ p i
  | .getChecked (some p) i => checkedByte σ p i
  | _ => none

/-- Every string that has not been freed is UTF-8. -/
def State.Utf8 (σ : State) : Prop :=
  ∀ s, some s ∈ σ.strs → Utf8.Valid s.bytes

/-- What the operations rely on after a step: valid strings, which `olive_str_as_str` reads, and
unchecked conversions of valid bytes. -/
structure Sound (σ : State) (op : StrOp) (after : State) : Prop where
  utf8 : after.Utf8
  asStr : ∀ i s, after.str i = some s → after.asStr (some i) ≠ none
  conversions : ∀ bytes, unchecked σ op = some bytes → Utf8.Valid bytes

def AsciiByte (σ : State) (op : StrOp) : Prop :=
  ∀ b, indexedByte σ op = some b → b < 0x80

/-- A property of every step of a run, as far as the run goes. -/
def Along (env : Env) (P : State → StrOp → State → Prop) : State → List StrOp → Prop
  | _, [] => True
  | σ, op :: ops => ∀ after refs, step env σ op = some (after, refs) →
      P σ op after ∧ Along env P after ops

/-- The state of a program that holds its literals, each with its terminator after it. -/
def start (literals : List (List Char)) : State where
  strs := literals.map fun text => some ⟨none, Utf8.encode text⟩
  bufs := []

theorem start_utf8 (literals : List (List Char)) : (start literals).Utf8 := by
  intro s hs
  obtain ⟨text, _, htext⟩ := List.mem_map.mp hs
  cases htext
  exact (Utf8.valid_encode text).takeWhile

/-- Strings of valid bytes came in at the end, and the others are as they were. -/
def Made (σ after : State) : Prop :=
  ∃ made : List (List UInt8), (∀ bytes ∈ made, Utf8.Valid bytes) ∧
    after.strs = σ.strs ++ made.map fun bytes => some (slabStr bytes)

section Made

variable {env : Env} {σ after : State} {refs : List Ref}

theorem Made.utf8 (hmade : Made σ after) (hσ : σ.Utf8) : after.Utf8 := by
  obtain ⟨made, hvalid, hstrs⟩ := hmade
  intro s hs
  rw [hstrs] at hs
  rcases List.mem_append.mp hs with hold | hnew
  · exact hσ s hold
  · obtain ⟨bytes, hbytes, hslab⟩ := List.mem_map.mp hnew
    cases hslab
    exact hvalid bytes hbytes

theorem made_of_strs (h : after.strs = σ.strs) : Made σ after :=
  ⟨[], by simp, by simpa using h⟩

theorem strAlloc_made {made : List (List UInt8)} (h : ∀ bytes ∈ made, Utf8.Valid bytes) :
    Made σ (σ.strAlloc made).1 :=
  ⟨made, h, rfl⟩

theorem strInternal_made {made : List (List UInt8)} (h : ∀ bytes ∈ made, Utf8.Valid bytes) :
    Made σ (σ.strInternal made).1 := by
  apply strAlloc_made
  intro bytes hbytes
  obtain ⟨before, hbefore, rfl⟩ := List.mem_map.mp hbytes
  exact (h before hbefore).filter

theorem texts_made (made : List (List Char)) : Made σ (σ.texts made).1 := by
  apply strInternal_made
  intro bytes hbytes
  obtain ⟨text, _, rfl⟩ := List.mem_map.mp hbytes
  exact Utf8.valid_encode text

theorem some_texts_made {made : List (List Char)} (h : some (σ.texts made) = some (after, refs)) :
    Made σ after := by
  have hpair := congrArg Prod.fst (Option.some.inj h)
  rw [← show (σ.texts made).1 = after from hpair]
  exact texts_made made

theorem map_texts_made {α : Type} {from? : Option α} {f : α → List (List Char)}
    (h : from?.map (fun a => σ.texts (f a)) = some (after, refs)) : Made σ after := by
  obtain ⟨a, _, ha⟩ := Option.map_eq_some_iff.mp h
  exact some_texts_made (congrArg some ha)

theorem textOp_made {s : Ref} {f : List Char → List (List Char)}
    (h : textOp σ s f = some (after, refs)) : Made σ after :=
  map_texts_made h

theorem textOp2_made {s a : Ref} {f : List Char → List Char → List (List Char)}
    (h : textOp2 σ s a f = some (after, refs)) : Made σ after := by
  obtain ⟨text, _, h⟩ := Option.bind_eq_some_iff.mp h
  exact map_texts_made h

theorem same_made {same : List Ref} (h : some (σ, same) = some (after, refs)) : Made σ after := by
  cases h
  exact made_of_strs rfl

theorem unlessNull_made {s : Ref} {answer : Outcome}
    (hanswer : answer = some (after, refs) → Made σ after)
    (h : unlessNull σ s answer = some (after, refs)) : Made σ after := by
  cases s with
  | none => exact same_made h
  | some i => exact hanswer h

theorem newBuf_made {data : List UInt8} (h : newBuf σ data = some (after, refs)) : Made σ after := by
  cases h
  exact made_of_strs rfl

theorem writeBuf_made {b : Ref} {f : List UInt8 → List UInt8}
    (h : writeBuf σ b f = some (after, refs)) : Made σ after := by
  cases b with
  | none => exact same_made h
  | some i =>
    cases h
    exact made_of_strs rfl

theorem writeBytes_made {b : Ref} {offset : Int} {data : List UInt8}
    (h : writeBytes σ b offset data = some (after, refs)) : Made σ after := by
  unfold writeBytes at h
  split at h
  next => exact same_made h
  next => exact writeBuf_made h

theorem getslice_made {s : Ref} {slice : Slice}
    (h : oliveStrGetslice σ s slice = some (after, refs)) : Made σ after := by
  unfold oliveStrGetslice at h
  split at h
  next => exact some_texts_made h
  next =>
    obtain ⟨text, _, h⟩ := Option.bind_eq_some_iff.mp h
    exact map_texts_made h

theorem slice_made {s : Ref} {start stop : Int}
    (h : oliveStrSlice σ s start stop = some (after, refs)) : Made σ after := by
  obtain ⟨bytes, _, h⟩ := Option.map_eq_some_iff.mp h
  split at h
  next =>
    dsimp only at h
    split at h
    next => exact some_texts_made (congrArg some h)
    next => exact some_texts_made (congrArg some h)
  next => exact same_made (congrArg some h)

theorem replace_made {s pat into : Ref}
    (h : oliveStrReplace σ s pat into = some (after, refs)) : Made σ after := by
  refine unlessNull_made (fun hanswer => ?_) h
  obtain ⟨toStr, _, hanswer⟩ := Option.bind_eq_some_iff.mp hanswer
  exact textOp2_made hanswer

theorem repeat_made {s : Ref} {n : Int} (h : oliveStrRepeat σ s n = some (after, refs)) :
    Made σ after := by
  unfold oliveStrRepeat at h
  split at h
  next => exact some_texts_made h
  next => exact textOp_made h

theorem split_made {s sep : Ref} (h : oliveStrSplit env σ s sep = some (after, refs)) :
    Made σ after := by
  unfold oliveStrSplit at h
  split at h
  next => exact textOp_made h
  next => exact textOp2_made h

/-- A string of bytes that were taken for valid, where they are. -/
theorem map_strInternal_made {out? : Option (List UInt8)}
    (hvalid : ∀ out, out? = some out → Utf8.Valid out)
    (h : out?.map (fun out => σ.strInternal [out]) = some (after, refs)) : Made σ after := by
  obtain ⟨out, hout, h⟩ := Option.map_eq_some_iff.mp h
  have hafter := congrArg Prod.fst h
  rw [← show (σ.strInternal [out]).1 = after from hafter]
  apply strInternal_made
  intro bytes hbytes
  rw [List.mem_singleton.mp hbytes]
  exact hvalid out hout

theorem join_made {list : Option (List Ref)} {sep : Ref}
    (hvalid : ∀ out, joined σ list sep = some out → Utf8.Valid out)
    (h : oliveStrJoin σ list sep = some (after, refs)) : Made σ after := by
  unfold oliveStrJoin at h
  split at h
  next => exact some_texts_made h
  next => exact map_strInternal_made hvalid h

theorem fmt_made {template : Ref} {args : Option (List Ref)}
    (hvalid : ∀ out, formatted σ template args = some out → Utf8.Valid out)
    (h : oliveStrFmt σ template args = some (after, refs)) : Made σ after := by
  unfold oliveStrFmt at h
  split at h
  next => exact some_texts_made h
  next =>
    split at h
    next => exact map_strInternal_made hvalid h
    next => exact textOp_made h

theorem chars_made {s : Ref} (h : oliveStrChars σ s = some (after, refs)) : Made σ after := by
  unfold oliveStrChars at h
  split at h
  next => exact same_made h
  next =>
    obtain ⟨text, _, h⟩ := Option.map_eq_some_iff.mp h
    have hafter := congrArg Prod.fst h
    rw [← show (σ.strAlloc (text.map String.utf8EncodeChar)).1 = after from hafter]
    apply strAlloc_made
    intro bytes hbytes
    obtain ⟨c, _, rfl⟩ := List.mem_map.mp hbytes
    exact ⟨[c], by simp⟩

theorem graphemes_made {s : Ref} (h : oliveStrGraphemes env σ s = some (after, refs)) :
    Made σ after := by
  unfold oliveStrGraphemes at h
  split at h
  next => exact same_made h
  next => exact textOp_made h

theorem bufFromStr_made {s : Ref} (h : oliveBufFromStr σ s = some (after, refs)) : Made σ after := by
  obtain ⟨text, _, h⟩ := Option.bind_eq_some_iff.mp h
  exact newBuf_made h

theorem bufGetslice_made {b : Ref} {slice : Slice}
    (h : oliveBufGetslice σ b slice = some (after, refs)) : Made σ after := by
  unfold oliveBufGetslice at h
  split at h
  next => exact newBuf_made h
  next =>
    obtain ⟨data, _, h⟩ := Option.bind_eq_some_iff.mp h
    exact newBuf_made h

theorem bufFromBase64_made {s : Ref} (h : oliveBufFromBase64 env σ s = some (after, refs)) :
    Made σ after := by
  unfold oliveBufFromBase64 at h
  split at h
  next => exact same_made h
  next =>
    obtain ⟨text, _, h⟩ := Option.bind_eq_some_iff.mp h
    split at h
    next => exact newBuf_made h
    next => exact same_made h

end Made

section Contents

variable {σ : State}

theorem State.Utf8.of_str (hσ : σ.Utf8) {i : Nat} {s : Str} (h : σ.str i = some s) :
    Utf8.Valid s.bytes := by
  apply hσ
  rw [State.str, Option.join_eq_some_iff] at h
  exact List.mem_of_getElem? h

theorem State.Utf8.of_bytes (hσ : σ.Utf8) {s : Ref} {bytes : List UInt8}
    (h : σ.bytes s = some bytes) : Utf8.Valid bytes := by
  cases s with
  | none =>
    cases h
    exact Utf8.Valid.nil
  | some i =>
    obtain ⟨str, hstr, rfl⟩ := Option.map_eq_some_iff.mp h
    exact hσ.of_str hstr

theorem State.Utf8.of_mapM (hσ : σ.Utf8) {refs : List Ref} {contents : List (List UInt8)}
    (h : refs.mapM σ.bytes = some contents) : ∀ bytes ∈ contents, Utf8.Valid bytes := by
  induction refs generalizing contents with
  | nil =>
    cases h
    simp
  | cons r refs ih =>
    rw [List.mapM_cons] at h
    obtain ⟨bytes, hbytes, h⟩ := Option.bind_eq_some_iff.mp h
    obtain ⟨rest, hrest, h⟩ := Option.bind_eq_some_iff.mp h
    cases h
    exact List.forall_mem_cons.mpr ⟨hσ.of_bytes hbytes, ih hrest⟩

theorem joinBytes_cons_cons (a b : List UInt8) (rest : List (List UInt8)) (sep : List UInt8) :
    joinBytes (a :: b :: rest) sep = a ++ (sep ++ joinBytes (b :: rest) sep) := rfl

theorem joinBytes_valid {elements : List (List UInt8)} {sep : List UInt8}
    (helements : ∀ bytes ∈ elements, Utf8.Valid bytes) (hsep : Utf8.Valid sep) :
    Utf8.Valid (joinBytes elements sep) := by
  induction elements with
  | nil => exact Utf8.Valid.nil
  | cons a rest ih =>
    rw [List.forall_mem_cons] at helements
    cases rest with
    | nil => simpa [joinBytes] using helements.1
    | cons b rest =>
      rw [joinBytes_cons_cons]
      exact helements.1.append (hsep.append (ih helements.2))

theorem joined_valid (hσ : σ.Utf8) {list : Option (List Ref)} {sep : Ref} {out : List UInt8}
    (h : joined σ list sep = some out) : Utf8.Valid out := by
  obtain ⟨elements, _, h⟩ := Option.bind_eq_some_iff.mp h
  obtain ⟨sepBytes, hsep, h⟩ := Option.bind_eq_some_iff.mp h
  obtain ⟨contents, hcontents, rfl⟩ := Option.map_eq_some_iff.mp h
  exact joinBytes_valid (hσ.of_mapM hcontents) (hσ.of_bytes hsep)

theorem interleave_valid {parts : List (List Char)} {args : List (List UInt8)}
    (h : ∀ arg ∈ args, Utf8.Valid arg) : Utf8.Valid (interleave parts args) := by
  fun_induction interleave parts args with
  | case1 => exact Utf8.Valid.nil
  | case2 => exact Utf8.valid_encode _
  | case3 part parts hne ih => exact (Utf8.valid_encode part).append (ih h)
  | case4 part parts arg args hne ih =>
    rw [List.forall_mem_cons] at h
    exact ((Utf8.valid_encode part).append h.1).append (ih h.2)

theorem formatted_valid (hσ : σ.Utf8) {template : Ref} {args : Option (List Ref)}
    {out : List UInt8} (h : formatted σ template args = some out) : Utf8.Valid out := by
  obtain ⟨tmpl, _, h⟩ := Option.bind_eq_some_iff.mp h
  obtain ⟨argBytes, hargs, rfl⟩ := Option.map_eq_some_iff.mp h
  exact interleave_valid (hσ.of_mapM hargs)

theorem unchecked_valid (hσ : σ.Utf8) {op : StrOp} {bytes : List UInt8}
    (h : unchecked σ op = some bytes) : Utf8.Valid bytes := by
  cases op with
  | join list sep => exact joined_valid hσ h
  | fmt template args => exact formatted_valid hσ h
  | _ => cases h

theorem asStr_ne_none (hσ : σ.Utf8) {i : Nat} {s : Str} (h : σ.str i = some s) :
    σ.asStr (some i) ≠ none := by
  obtain ⟨text, htext⟩ := hσ.of_str h
  have hbytes : σ.bytes (some i) = some s.bytes := by simp [State.bytes, h]
  rw [State.asStr, hbytes, Option.bind_some, htext, Utf8.decode_encode]
  exact Option.some_ne_none text

end Contents


section Steps

variable {env : Env} {σ after : State} {refs : List Ref}

theorem concat_made (hσ : σ.Utf8) {l r : Ref} (h : oliveStrConcat σ l r = some (after, refs)) :
    Made σ after := by
  obtain ⟨lBytes, hl, h⟩ := Option.bind_eq_some_iff.mp h
  obtain ⟨rBytes, hr, h⟩ := Option.map_eq_some_iff.mp h
  have hafter := congrArg Prod.fst h
  rw [← show (σ.strAlloc [lBytes ++ rBytes]).1 = after from hafter]
  apply strAlloc_made
  intro bytes hbytes
  rw [List.mem_singleton.mp hbytes]
  exact (hσ.of_bytes hl).append (hσ.of_bytes hr)

theorem State.Utf8.set (hσ : σ.Utf8) (i : Nat) {s? : Option Str}
    (hs : ∀ s, s? = some s → Utf8.Valid s.bytes) :
    State.Utf8 { σ with strs := σ.strs.set i s? } := by
  intro s hmem
  rcases List.mem_or_eq_of_mem_set hmem with hold | hnew
  · exact hσ s hold
  · exact hs s hnew.symm

theorem State.Utf8.strFree (hσ : σ.Utf8) (i : Nat) : (σ.strFree i).Utf8 := by
  unfold State.strFree
  split
  next => exact hσ.set i (by simp)
  next => exact hσ

theorem concatMove_utf8 (hσ : σ.Utf8) {l r : Ref}
    (h : oliveStrConcatMove σ l r = some (after, refs)) : after.Utf8 := by
  obtain ⟨lBytes, hl, h⟩ := Option.bind_eq_some_iff.mp h
  obtain ⟨rBytes, hr, h⟩ := Option.map_eq_some_iff.mp h
  have hboth : Utf8.Valid (lBytes ++ rBytes) := (hσ.of_bytes hl).append (hσ.of_bytes hr)
  have halloc : (σ.strAlloc [lBytes ++ rBytes]).1.Utf8 :=
    (strAlloc_made (by simpa using hboth)).utf8 hσ
  have hafter := congrArg Prod.fst h
  rw [← show _ = after from hafter]
  cases l with
  | none => exact halloc
  | some i =>
    dsimp only
    split
    next cap _ =>
      split
      next =>
        -- in place: the slot keeps its capacity and gets the longer content
        refine hσ.set i fun s hs => ?_
        cases hs
        exact hboth
      next => exact halloc.strFree i
    next => exact halloc

/-- Appending the interned string of a byte. -/
theorem charStr_utf8 {byte : UInt8} (hσ : σ.Utf8) :
    (σ.charStr byte).1.Utf8 ↔ byte < 0x80 := by
  have hbytes : Utf8.Valid (Str.bytes ⟨none, [byte]⟩) ↔ byte < 0x80 := by
    by_cases hzero : byte = 0
    · rw [hzero]
      decide
    · rw [← Utf8.valid_singleton]
      simp [Str.bytes, hzero]
  rw [← hbytes]
  constructor
  · intro h
    apply h
    exact List.mem_append_right _ (List.mem_singleton_self _)
  · intro h s hs
    rcases List.mem_append.mp hs with hold | hnew
    · exact hσ s hold
    · cases List.mem_singleton.mp hnew
      exact h

theorem get_utf8 (hσ : σ.Utf8) {s : Ref} {i : Int} (h : oliveStrGet σ s i = some (after, refs)) :
    after.Utf8 ↔ AsciiByte σ (.get s i) := by
  cases s with
  | none =>
    cases h
    simpa [AsciiByte, indexedByte] using hσ
  | some p =>
    obtain ⟨byte, hbyte, h⟩ := Option.map_eq_some_iff.mp h
    have hascii : AsciiByte σ (.get (some p) i) ↔ byte < 0x80 := by
      simp [AsciiByte, indexedByte, hbyte]
    rw [hascii]
    split at h
    next hzero =>
      cases h
      rw [hzero]
      exact iff_of_true hσ (by decide)
    next =>
      have hafter := congrArg Prod.fst h
      rw [← show (σ.charStr byte).1 = after from hafter]
      exact charStr_utf8 hσ

theorem getChecked_utf8 (hσ : σ.Utf8) {s : Ref} {i : Int}
    (h : oliveStrGetChecked σ s i = some (after, refs)) :
    after.Utf8 ↔ AsciiByte σ (.getChecked s i) := by
  obtain ⟨p, rfl, h⟩ := Option.bind_eq_some_iff.mp h
  obtain ⟨byte, hbyte, h⟩ := Option.map_eq_some_iff.mp h
  have hascii : AsciiByte σ (.getChecked (some p) i) ↔ byte < 0x80 := by
    simp [AsciiByte, indexedByte, hbyte]
  have hafter := congrArg Prod.fst h
  rw [hascii, ← show (σ.charStr byte).1 = after from hafter]
  exact charStr_utf8 hσ

/-- From valid strings, the strings after a step are valid exactly when it made no string of a byte
that is not ASCII. -/
theorem step_utf8 (hσ : σ.Utf8) {op : StrOp} (h : step env σ op = some (after, refs)) :
    after.Utf8 ↔ AsciiByte σ op := by
  have hmade (hmade : Made σ after) (hbyte : indexedByte σ op = none) :
      after.Utf8 ↔ AsciiByte σ op :=
    iff_of_true (hmade.utf8 hσ) (by simp [AsciiByte, hbyte])
  cases op with
  | get s i => exact get_utf8 hσ h
  | char s i =>
    have hsame : indexedByte σ (.char s i) = indexedByte σ (.get s i) := by cases s <;> rfl
    rw [AsciiByte, hsame]
    exact get_utf8 hσ h
  | getChecked s i => exact getChecked_utf8 hσ h
  | concatMove l r => exact iff_of_true (concatMove_utf8 hσ h) (by simp [AsciiByte, indexedByte])
  | getslice s slice => exact hmade (getslice_made h) rfl
  | slice s start stop => exact hmade (slice_made h) rfl
  | trim s => exact hmade (unlessNull_made textOp_made h) rfl
  | trimStart s => exact hmade (unlessNull_made textOp_made h) rfl
  | trimEnd s => exact hmade (unlessNull_made textOp_made h) rfl
  | upper s => exact hmade (unlessNull_made textOp_made h) rfl
  | lower s => exact hmade (unlessNull_made textOp_made h) rfl
  | replace s pat into => exact hmade (replace_made h) rfl
  | repeatN s n => exact hmade (repeat_made h) rfl
  | split s sep => exact hmade (split_made h) rfl
  | join list sep => exact hmade (join_made (fun out hout => joined_valid hσ hout) h) rfl
  | splitlines s => exact hmade (textOp_made h) rfl
  | title s => exact hmade (textOp_made h) rfl
  | capitalize s => exact hmade (textOp_made h) rfl
  | zfill s width => exact hmade (textOp_made h) rfl
  | ljust s width fill => exact hmade (textOp2_made h) rfl
  | rjust s width fill => exact hmade (textOp2_made h) rfl
  | center s width fill => exact hmade (textOp2_made h) rfl
  | removeLeading s pat => exact hmade (textOp2_made h) rfl
  | removeTrailing s pat => exact hmade (textOp2_made h) rfl
  | trimChars s chars => exact hmade (textOp2_made h) rfl
  | trimStartChars s chars => exact hmade (textOp2_made h) rfl
  | trimEndChars s chars => exact hmade (textOp2_made h) rfl
  | partition s sep => exact hmade (textOp2_made h) rfl
  | fmt template args => exact hmade (fmt_made (fun out hout => formatted_valid hσ hout) h) rfl
  | chars s => exact hmade (chars_made h) rfl
  | graphemes s => exact hmade (graphemes_made h) rfl
  | concat l r => exact hmade (concat_made hσ h) rfl
  | bufNew cap => exact hmade (newBuf_made h) rfl
  | bufNewZeroed len => exact hmade (newBuf_made h) rfl
  | bufFromStr s => exact hmade (bufFromStr_made h) rfl
  | bufPush b n val => exact hmade (writeBuf_made h) rfl
  | bufSet b idx val => exact hmade (writeBuf_made h) rfl
  | bufWrite b n le offset val => exact hmade (writeBytes_made h) rfl
  | bufToStr b => exact hmade (some_texts_made h) rfl
  | bufToHex b => exact hmade (some_texts_made h) rfl
  | bufConcat a b => exact hmade (newBuf_made h) rfl
  | bufSlice b start stop => exact hmade (newBuf_made h) rfl
  | bufGetslice b slice => exact hmade (bufGetslice_made h) rfl
  | bufToBase64 b => exact hmade (some_texts_made h) rfl
  | bufFromBase64 s => exact hmade (bufFromBase64_made h) rfl

theorem step_sound (hσ : σ.Utf8) {op : StrOp} (h : step env σ op = some (after, refs)) :
    Sound σ op after ↔ AsciiByte σ op := by
  rw [← step_utf8 hσ h]
  constructor
  · intro hsound
    exact hsound.utf8
  · intro hafter
    exact ⟨hafter, fun i s hs => asStr_ne_none hafter hs, fun bytes hbytes => unchecked_valid hσ hbytes⟩

theorem along_sound (hσ : σ.Utf8) (ops : List StrOp) :
    Along env Sound σ ops ↔ Along env (fun σ op _ => AsciiByte σ op) σ ops := by
  induction ops generalizing σ with
  | nil => exact Iff.rfl
  | cons op ops ih =>
    constructor
    · intro h after refs hstep
      obtain ⟨hsound, hrest⟩ := h after refs hstep
      exact ⟨(step_sound hσ hstep).mp hsound, (ih hsound.utf8).mp hrest⟩
    · intro h after refs hstep
      obtain ⟨hascii, hrest⟩ := h after refs hstep
      have hsound := (step_sound hσ hstep).mpr hascii
      exact ⟨hsound, (ih hsound.utf8).mpr hrest⟩

end Steps

/-- From literals, every string of a run is UTF-8, with every unchecked conversion justified,
exactly when the bytes that the run makes strings of by indexing are ASCII. -/
theorem strings_utf8_iff (env : Env) (literals : List (List Char)) (ops : List StrOp) :
    (start literals).Utf8 ∧ Along env Sound (start literals) ops ↔
      Along env (fun σ op _ => AsciiByte σ op) (start literals) ops := by
  rw [along_sound (start_utf8 literals) ops]
  exact and_iff_right (start_utf8 literals)

def noTables : Env where
  unicode := {
    isWhitespace := fun c => c = ' '
    isAlphabetic := fun c => c.isAlpha
    toUppercase := fun c => [c.toUpper]
    toLowercase := fun c => [c.toLower]
    strToLowercase := List.map Char.toLower
    graphemes := List.map fun c => [c] }
  hexEncode := fun _ => []
  base64Encode := fun _ => []
  base64Decode := fun _ => none

/-- The first byte of a letter of two, then a join of what was read: the join converts a byte that
is no text. -/
theorem indexing_splits_letter :
    ¬ ∀ (env : Env) (literals : List (List Char)) (ops : List StrOp),
      (start literals).Utf8 ∧ Along env Sound (start literals) ops := by
  intro h
  have hrun := (h noTables [['é']] [.getChecked (some 0) 0, .join (some [some 1]) none]).2
  obtain ⟨-, hjoin⟩ := hrun _ _ rfl
  have hsound := (hjoin _ _ rfl).1
  have hvalid := hsound.conversions [0xC3] (by decide)
  exact absurd (Utf8.valid_singleton.mp hvalid) (by decide)

end RuntimeStrings

end Olive
