import Olive.DictHeap

/-! An integer that a typed dictionary stores raw, read as an `Any` and unboxed again. -/

namespace Olive

namespace Dicts

open AnyBinop

section Reads

variable (rt : Runtime) (σ : World)

/-- `olive_box_int`, on the heap. -/
def boxInt (i : Word) : Outcome (World × Word) :=
  if anyIntMin ≤ i.toInt ∧ i.toInt ≤ anyIntMax then .ok (σ, tagged i)
  else allocSlot rt σ (.boxed AnyBinop.kindInt i)

def boxStored (v : Word) : Outcome (World × Word) :=
  if isActiveObject σ v ∨ v &&& 1 = 1 ∨ v &&& tagMask ≠ 0 ∨ v.toInt < 0x10000 then .ok (σ, v)
  else boxInt rt σ v

def oliveObjGetDefaultBoxed (d attr default : Word) : Outcome (World × Word) :=
  getDefaultImpl rt σ (boxStored rt) d attr default

def oliveObjGetBoxed (d attr : Word) : Outcome (World × Word) :=
  (oliveObjGet rt σ d attr).bind fun (σ, v) => boxStored rt σ v

/-- The heap as the operators on `Any` see it. What they call besides is `numbers`. -/
def onHeap (numbers : AnyRuntime World) : AnyRuntime World :=
  { numbers with
    isLiveSlot := fun σ v => (σ.slots v).isSome
    kind := fun σ v => ((σ.slots v).map (Slot.kind rt)).getD 0
    bits := fun σ v => ((σ.slots v).map (Slot.bits rt)).getD 0
    text := fun σ v => ((σ.strBytes v).map Utf8.decodeLossy).getD (numbers.text σ v) }

end Reads

section Law

variable (rt : Runtime) (numbers : AnyRuntime World) (σ : World)

/-- The dictionary at `d` has `v` under `k`. -/
def Stored (d k v : Word) : Prop :=
  ∃ kind fields, σ.live d = some (.obj kind fields) ∧ mapGet rt σ fields k = .ok (some v)

/-- What the unboxing makes of the word that a read gives is `v`; the read itself goes through unless
the memory is full. -/
def Gives (v : Word) (read : Outcome (World × Word)) : Prop :=
  (∃ after r, read = .ok (after, r) ∧ (oliveUnboxInt (onHeap rt numbers) r after).1 = v) ∨
    read = .error .outOfMemory

structure Survives (d k v : Word) : Prop where
  get : Gives rt numbers v (oliveObjGetBoxed rt σ d k)
  getDefault : ∀ default, Gives rt numbers v (oliveObjGetDefaultBoxed rt σ d k default)

/-- The words that say what they are: no tag in the low bits, and `v` itself in the number, the text
or the Python object that is at `v`. -/
structure SelfDescribing (v : Word) : Prop where
  untagged : v &&& tagMask = 0 ∨ v &&& 1 = 1
  number : ∀ kind bits, asBoxed (onHeap rt numbers) σ v = some (kind, bits) →
    (if kind = kindFloat then numbers.intOfFloat bits else bits) = v
  text : anyIsStr v = true → numbers.parseInt ((onHeap rt numbers).text σ v) = v
  python : AnyBinop.isPyobject (onHeap rt numbers) σ v = true → (numbers.pyToInt v σ).1 = v

end Law

section Bits

variable {v : Word}

theorem and_seven (v : Word) : (v &&& 7).toNat = v.toNat % 8 := by
  rw [BitVec.toNat_and]
  exact Nat.and_two_pow_sub_one_eq_mod _ 3

theorem and_one (v : Word) : (v &&& 1).toNat = v.toNat % 2 := by
  rw [BitVec.toNat_and]
  exact Nat.and_two_pow_sub_one_eq_mod _ 1

theorem tagged_mask (v : Word) : tagged v &&& tagMask = tagInt := by
  have hshift : (v <<< 3) &&& tagMask = 0 := by
    apply BitVec.eq_of_toNat_eq
    show ((v <<< 3) &&& 7).toNat = 0
    rw [and_seven, BitVec.toNat_shiftLeft, Nat.shiftLeft_eq]
    omega
  unfold tagged
  rw [BitVec.and_or_distrib_right, hshift]
  rfl

theorem tagged_payload (h : anyIntMin ≤ v.toInt ∧ v.toInt ≤ anyIntMax) :
    (tagged v).sshiftRight 3 = v := by
  have hshift : (v <<< 3).sshiftRight 3 = v := by
    apply BitVec.eq_of_toInt_eq
    rw [BitVec.toInt_sshiftRight, Int.shiftRight_eq_div_pow, BitVec.toInt_shiftLeft, Nat.shiftLeft_eq]
    have := BitVec.toInt_eq_toNat_cond v
    unfold anyIntMin anyIntMax at h
    rw [Int.bmod_def]
    split_ifs at * <;> omega
  unfold tagged
  rw [BitVec.sshiftRight_or_distrib, hshift]
  exact BitVec.or_zero

/-- A word with a tag is not its own payload. -/
theorem payload_ne (h : v &&& tagMask = tagInt ∨ v &&& tagMask = tagBool) : v.sshiftRight 3 ≠ v := by
  intro heq
  have hint := congrArg BitVec.toInt heq
  rw [BitVec.toInt_sshiftRight, Int.shiftRight_eq_div_pow] at hint
  have hmod : v.toNat % 8 = 2 ∨ v.toNat % 8 = 4 := by
    rw [← and_seven]
    rcases h with h | h
    · left
      exact congrArg BitVec.toNat h
    · right
      exact congrArg BitVec.toNat h
  have hcond := BitVec.toInt_eq_toNat_cond v
  have := v.isLt
  split_ifs at hcond <;> omega

end Bits

section Unboxing

variable {rt : Runtime} {numbers : AnyRuntime World} {σ : World} {v : Word}

theorem isActive_onHeap : AnyBinop.isActiveObject (onHeap rt numbers) σ v = isActiveObject σ v := by
  unfold AnyBinop.isActiveObject isActiveObject World.live onHeap
  rw [Bool.eq_iff_iff, Bool.and_eq_true, Bool.and_eq_true, decide_eq_true_eq, beq_iff_eq]
  by_cases h : 0 < v.toInt ∧ v &&& 7 = 0
  · rw [if_pos h]
    exact ⟨fun hlive => hlive.2, fun hlive => ⟨h, hlive⟩⟩
  · rw [if_neg h]
    exact ⟨fun hlive => absurd hlive.1 h, fun hlive => (nomatch hlive)⟩

/-- The body of a slot is no string pointer. -/
theorem anyIsStr_active (h : isActiveObject σ v = true) : anyIsStr v = false := by
  unfold isActiveObject World.live at h
  split_ifs at h with hbody
  · have hone := and_one v
    have hmod := and_seven v
    rw [hbody.2, show (0 : Word).toNat = 0 from rfl] at hmod
    unfold anyIsStr
    rw [Bool.and_eq_false_iff, beq_eq_false_iff_ne]
    left
    intro he
    rw [he, show (1 : Word).toNat = 1 from rfl] at hone
    omega
  · cases h

theorem asBoxed_active {b : Word × Word} (h : asBoxed (onHeap rt numbers) σ v = some b) :
    isActiveObject σ v = true := by
  have hsame : AnyBinop.isActiveObject (onHeap rt numbers) σ v = isActiveObject σ v := isActive_onHeap
  rw [← hsame]
  unfold asBoxed at h
  split_ifs at h with hactive
  exact hactive

theorem isPyobject_boxed {b : Word × Word} (h : asBoxed (onHeap rt numbers) σ v = some b) :
    AnyBinop.isPyobject (onHeap rt numbers) σ v = false := by
  unfold asBoxed at h
  split_ifs at h with hactive hkind
  unfold AnyBinop.isPyobject
  rw [Bool.and_eq_false_iff, beq_eq_false_iff_ne]
  right
  intro he
  rw [he] at hkind
  exact absurd hkind (by decide)

theorem tags_cases (h : ¬ (v &&& tagMask = tagInt ∨ v &&& tagMask = tagBool))
    (hnull : v &&& tagMask ≠ tagNull) : v &&& tagMask = 0 ∨ v &&& 1 = 1 := by
  rw [not_or] at h
  have hlow : v.toNat % 8 ≠ 2 ∧ v.toNat % 8 ≠ 4 ∧ v.toNat % 8 ≠ 6 := by
    rw [← and_seven]
    refine ⟨fun he => h.1 ?_, fun he => h.2 ?_, fun he => hnull ?_⟩ <;>
      exact BitVec.eq_of_toNat_eq he
  by_cases hzero : v.toNat % 8 = 0
  · left
    apply BitVec.eq_of_toNat_eq
    show (v &&& 7).toNat = 0
    rw [and_seven, hzero]
  · right
    apply BitVec.eq_of_toNat_eq
    show (v &&& 1).toNat = 1
    rw [and_one]
    omega

theorem untagged_tags (h : v &&& tagMask = 0 ∨ v &&& 1 = 1) :
    ¬ (v &&& tagMask = tagInt ∨ v &&& tagMask = tagBool) ∧ v &&& tagMask ≠ tagNull := by
  have hlow : v.toNat % 8 = 0 ∨ v.toNat % 2 = 1 := by
    rw [← and_seven, ← and_one]
    exact h.imp (congrArg BitVec.toNat) (congrArg BitVec.toNat)
  have hne (t : Word) (ht : t.toNat % 2 = 0 ∧ 0 < t.toNat) : v &&& tagMask ≠ t := by
    intro he
    have hmod := and_seven v
    rw [show v &&& 7 = t from he] at hmod
    omega
  exact ⟨not_or.mpr ⟨hne _ (by decide), hne _ (by decide)⟩, hne _ (by decide)⟩

/-- A raw word is read back exactly where it says what it is. -/
theorem unboxInt_self_iff :
    (oliveUnboxInt (onHeap rt numbers) v σ).1 = v ↔ SelfDescribing rt numbers σ v := by
  unfold oliveUnboxInt
  by_cases htag : v &&& tagMask = tagInt ∨ v &&& tagMask = tagBool
  · rw [if_pos htag]
    constructor
    · intro heq
      exact absurd heq (payload_ne htag)
    · intro hself
      exact absurd htag (untagged_tags hself.untagged).1
  rw [if_neg htag]
  by_cases hnull : v &&& tagMask = tagNull
  · rw [if_pos hnull]
    constructor
    · intro heq
      rw [← show (0 : Word) = v from heq] at hnull
      exact absurd hnull (by decide)
    · intro hself
      exact absurd hnull (untagged_tags hself.untagged).2
  rw [if_neg hnull]
  have huntagged := tags_cases htag hnull
  cases hboxed : asBoxed (onHeap rt numbers) σ v with
  | some b =>
    have hstr := anyIsStr_active (asBoxed_active hboxed)
    have hpy := isPyobject_boxed hboxed
    constructor
    · intro heq
      refine ⟨huntagged, ?_, ?_, ?_⟩
      · intro kind bits h
        rw [hboxed, Option.some.injEq] at h
        rw [h] at heq
        exact heq
      · intro h
        exact absurd h (by rw [hstr]; decide)
      · intro h
        exact absurd h (by rw [hpy]; decide)
    · intro hself
      exact hself.number b.1 b.2 hboxed
  | none =>
    have hnumber : ∀ kind bits, asBoxed (onHeap rt numbers) σ v = some (kind, bits) →
        (if kind = kindFloat then numbers.intOfFloat bits else bits) = v := by
      intro kind bits h
      rw [hboxed] at h
      cases h
    by_cases hstr : anyIsStr v = true
    · have hpy : ¬ AnyBinop.isPyobject (onHeap rt numbers) σ v = true := by
        intro h
        unfold AnyBinop.isPyobject at h
        rw [isActive_onHeap, Bool.and_eq_true] at h
        rw [anyIsStr_active h.1] at hstr
        cases hstr
      rw [if_pos hstr]
      exact ⟨fun heq => ⟨huntagged, hnumber, fun _ => heq, fun h => absurd h hpy⟩,
        fun hself => hself.text hstr⟩
    · rw [if_neg hstr]
      by_cases hpy : AnyBinop.isPyobject (onHeap rt numbers) σ v = true
      · rw [if_pos hpy]
        exact ⟨fun heq => ⟨huntagged, hnumber, fun h => absurd h hstr, fun _ => heq⟩,
          fun hself => hself.python hpy⟩
      · rw [if_neg hpy]
        exact ⟨fun _ => ⟨huntagged, hnumber, fun h => absurd h hstr, fun h => absurd h hpy⟩,
          fun _ => rfl⟩

theorem gives_ok {after : World} {r : Word} :
    Gives rt numbers v (.ok (after, r)) ↔ (oliveUnboxInt (onHeap rt numbers) r after).1 = v := by
  constructor
  · rintro (⟨after', r', h, heq⟩ | h)
    · cases h
      exact heq
    · cases h
  · intro heq
    exact .inl ⟨after, r, rfl, heq⟩

/-- The box of an integer holds it. -/
theorem boxInt_gives : Gives rt numbers v (boxInt rt σ v) := by
  unfold boxInt
  split_ifs with hrange
  · rw [gives_ok, oliveUnboxInt_int (tagged_mask v)]
    exact tagged_payload hrange
  · unfold allocSlot
    cases hnext : rt.next σ with
    | none => exact .inr rfl
    | some a =>
      obtain ⟨-, hlarge, haligned⟩ := rt.next_fresh σ a hnext
      have hslot : (σ.put a (.boxed AnyBinop.kindInt v)).slots a = some (.boxed AnyBinop.kindInt v) :=
        Function.update_self ..
      have hactive : AnyBinop.isActiveObject (onHeap rt numbers)
          (σ.put a (.boxed AnyBinop.kindInt v)) a = true := by
        rw [isActive_onHeap]
        unfold isActiveObject World.live
        rw [if_pos ⟨by omega, haligned⟩, hslot]
        rfl
      have hboxed : asBoxed (onHeap rt numbers) (σ.put a (.boxed AnyBinop.kindInt v)) a =
          some (AnyBinop.kindInt, v) := by
        unfold asBoxed
        rw [if_pos hactive]
        simp only [onHeap, hslot, Option.map_some, Option.getD_some, Slot.kind, Slot.bits, or_true,
          if_true]
      obtain ⟨htag, hnull⟩ := untagged_tags (v := a) (.inl haligned)
      rw [gives_ok]
      unfold oliveUnboxInt
      rw [if_neg htag, if_neg hnull, hboxed]
      show (if AnyBinop.kindInt = kindFloat then numbers.intOfFloat v else v) = v
      exact if_neg (by decide)

theorem boxStored_gives_iff :
    Gives rt numbers v (boxStored rt σ v) ↔ SelfDescribing rt numbers σ v := by
  unfold boxStored
  split_ifs with hraw
  · rw [gives_ok]
    exact unboxInt_self_iff
  · rw [not_or, not_or, not_or] at hraw
    obtain ⟨hactive, hodd, htag, -⟩ := hraw
    refine ⟨fun _ => ⟨.inl (not_not.mp htag), ?_, ?_, ?_⟩, fun _ => boxInt_gives⟩
    · intro kind bits h
      exact absurd (asBoxed_active h) hactive
    · intro h
      unfold anyIsStr at h
      rw [Bool.and_eq_true, beq_iff_eq] at h
      exact absurd h.1 hodd
    · intro h
      unfold AnyBinop.isPyobject at h
      rw [isActive_onHeap, Bool.and_eq_true] at h
      exact absurd h.1 hactive

end Unboxing

section Stored

variable {rt : Runtime} {numbers : AnyRuntime World} {σ : World} {d k v : Word}

theorem live_slots {slot : Slot} (h : σ.live d = some slot) : σ.slots d = some slot := by
  unfold World.live at h
  split_ifs at h
  exact h

/-- The lookup in a dictionary that is live. -/
theorem Stored.find (h : Stored rt σ d k v) : isActiveObject σ d = true ∧ isPyobject rt σ d = false ∧
    find rt σ d k = .ok (some v) := by
  obtain ⟨kind, fields, hlive, hget⟩ := h
  refine ⟨?_, ?_, ?_⟩
  · unfold isActiveObject
    rw [hlive]
    rfl
  · unfold isPyobject
    rw [hlive]
    rfl
  · unfold Dicts.find World.fields
    rw [live_slots hlive]
    exact hget

theorem Stored.getBoxed (h : Stored rt σ d k v) : oliveObjGetBoxed rt σ d k = boxStored rt σ v := by
  obtain ⟨hactive, hpy, hfind⟩ := h.find
  unfold oliveObjGetBoxed oliveObjGet
  rw [if_neg (by simp [hactive]), if_neg (by simp [hpy]), hfind]
  rfl

theorem Stored.getDefaultBoxed (h : Stored rt σ d k v) (default : Word) :
    oliveObjGetDefaultBoxed rt σ d k default = boxStored rt σ v := by
  obtain ⟨hactive, hpy, hfind⟩ := h.find
  unfold oliveObjGetDefaultBoxed getDefaultImpl
  rw [if_neg (by simp [hactive]), if_neg (by simp [hpy]), hfind]
  rfl

/-- A new dictionary of integers that has `v` under 1. -/
def storing (v : Word) : Outcome (World × Word) :=
  (oliveObjNew smallHeap emptyWorld .int).bind fun (σ, d) => oliveObjSet smallHeap σ d 1 v

def noNumbers : AnyRuntime World where
  isLiveSlot _ _ := false
  kind _ _ := 0
  bits _ _ := 0
  heapBox _ _ w := (0, w)
  strConcat a _ w := (a, w)
  listConcat a _ w := (a, w)
  text _ _ := []
  parseInt _ := 0
  parseFloat _ := 0
  pyToInt _ w := (0, w)
  pyToFloat _ w := (0, w)
  float := ⟨fun a _ => a, fun a _ => a, fun a _ => a, fun a _ => a, fun a b => a == b,
    fun _ _ => false, fun a b => a == b⟩
  floatRem a _ := a
  floatOfInt a := a
  intOfFloat a := a

end Stored

end Dicts

end Olive
