import Olive.DescriptorLayout

/-! Descriptors that fit their bytes are read the way they were written. -/

namespace Olive

open Walked

/-- Bytes that are the same in UTF-8. -/
def Ascii (out : List UInt8) : Prop := ∀ b ∈ out, b.toNat < 128

section Ascii

variable {out rest : List UInt8}

theorem utf8EncodeChar_ascii : ∀ n < 128, String.utf8EncodeChar (Char.ofNat n) = [UInt8.ofNat n] := by
  decide +kernel

theorem emitted_of_ascii (h : Ascii out) : emitted out = out := by
  induction out with
  | nil => rfl
  | cons b out ih =>
    have hb := h b List.mem_cons_self
    have hrest := ih fun c hc => h c (List.mem_cons_of_mem _ hc)
    unfold emitted at hrest ⊢
    rw [List.flatMap_cons, hrest, utf8EncodeChar_ascii _ hb]
    simp

theorem posAfter_of_ascii (h : Ascii out) : posAfter out = out.length := by
  rw [posAfter, emitted_of_ascii h]

theorem Ascii.append (h : Ascii out) (h' : Ascii rest) : Ascii (out ++ rest) := by
  intro b hb
  rcases List.mem_append.mp hb with hb | hb
  · exact h b hb
  · exact h' b hb

theorem ascii_singleton {b : UInt8} (h : b.toNat < 128) : Ascii [b] := by
  intro c hc
  rwa [List.mem_singleton.mp hc]

theorem toNat_toUInt8 {n : Nat} (h : n < 256) : n.toUInt8.toNat = n :=
  UInt8.toNat_ofNat_of_lt' h

theorem ascii_count {n : Nat} (h : n < 128) : Ascii [n.toUInt8] :=
  ascii_singleton (by rw [toNat_toUInt8 (by omega)]; exact h)

theorem pushLenPrefixed_eq {s : String} (h : nameLength s ≤ 242) :
    pushLenPrefixed out s = out ++ (nameLength s + 13).toUInt8 :: s.toUTF8.data.toList := by
  show out ++ (min (nameLength s) 242 + 13).toUInt8 :: List.take 242 _ = _
  rw [Nat.min_eq_left h, List.take_of_length_le h]

theorem FitsName.ascii_push {s : String} (h : FitsName s) (hout : Ascii out) :
    Ascii (pushLenPrefixed out s) := by
  have hshort := h.short
  rw [pushLenPrefixed_eq (by omega), List.append_cons]
  exact (hout.append (ascii_count (by omega))).append h.ascii

theorem FitsName.length_push {s : String} (h : FitsName s) :
    (pushLenPrefixed out s).length = out.length + 1 + nameLength s := by
  have hshort := h.short
  rw [pushLenPrefixed_eq (by omega)]
  simp only [List.length_append, List.length_cons, nameLength]
  omega

theorem foldl_ascii {τ : Type} {push : List UInt8 → τ → List UInt8} {ts : List τ}
    (h : ∀ t ∈ ts, ∀ out, Ascii out → Ascii (push out t)) (hout : Ascii out) :
    Ascii (ts.foldl push out) := by
  induction ts generalizing out with
  | nil => exact hout
  | cons t ts ih =>
    exact ih (fun t ht => h t (List.mem_cons_of_mem _ ht)) (h t List.mem_cons_self out hout)

end Ascii

section Walked

variable {α : Type} {w : Walked α}

/-- `w` ends at `pos`, if it ends at all. -/
def Walked.EndsAt (w : Walked α) (pos : Nat) : Prop := ∀ p, w.ends = some p → p = pos

theorem andThen_goesTo {pos : Nat} (h : w.EndsAt pos) :
    (w.andThen fun _ => goesTo (some pos)) = w := by
  obtain ⟨seen, ends⟩ := w
  cases ends with
  | none => rfl
  | some p =>
    obtain rfl := h p rfl
    simp [andThen, goesTo]

theorem andThen_endsAt {next : Nat → Walked α} {pos : Nat} (h : ∀ p, (next p).EndsAt pos) :
    (w.andThen next).EndsAt pos := by
  obtain ⟨seen, ends⟩ := w
  cases ends with
  | none => intro p hp; cases hp
  | some p => exact h p

theorem goesTo_endsAt (pos : Nat) : (goesTo (some pos) : Walked α).EndsAt pos := by
  intro p hp
  exact (Option.some.inj hp).symm

theorem note_andThen (s : Seen α) (next : Nat → Walked α) :
    (note s w).andThen next = note s (w.andThen next) := by
  obtain ⟨seen, ends⟩ := w
  cases ends with
  | none => rfl
  | some p => rfl

theorem goesTo_some_andThen (pos : Nat) (next : Nat → Walked α) :
    (goesTo (some pos)).andThen next = next pos := by
  simp [andThen, goesTo]

/-- What comes after `w` matters at the position it ends at only. -/
theorem andThen_congr {next next' : Nat → Walked α} {pos : Nat} (h : w.EndsAt pos)
    (hnext : next pos = next' pos) : w.andThen next = w.andThen next' := by
  obtain ⟨seen, ends⟩ := w
  cases ends with
  | none => rfl
  | some p =>
    obtain rfl := h p rfl
    simp only [andThen, hnext]

theorem andThen_ends {next : Nat → Walked α} {pos : Nat} (h : w.ends = some pos) :
    (w.andThen next).ends = (next pos).ends := by
  simp [andThen, h]

end Walked

section Expected

variable {α : Type} {walker : Walker} {tables : TypeTables} {zero : α} {v : Value α}
  {visiting : FxHashMap String Nat} {ty : OliveType} {out : List UInt8}

theorem expected_endsAt (depth : Nat) : (expected walker tables zero depth v visiting ty out).EndsAt
    (posAfter (encodeDescriptor tables visiting ty out)) := by
  cases depth with
  | zero => intro p hp; cases hp
  | succ depth => exact andThen_endsAt fun _ => goesTo_endsAt _

theorem forTypes_endsAt {τ : Type} {body : Nat → τ → List UInt8 → Walked α}
    {push : List UInt8 → τ → List UInt8} (ts : List τ) (i : Nat) :
    (forTypes body push ts i out).EndsAt (posAfter (ts.foldl push out)) := by
  induction ts generalizing i out with
  | nil => exact goesTo_endsAt _
  | cons t ts ih => exact andThen_endsAt fun _ => ih (i + 1)

end Expected

section Reading

variable {desc out rest : List UInt8}

theorem getElem?_of_extends {b : UInt8} (h : out ++ b :: rest <+: desc) :
    desc[out.length]? = some b := by
  obtain ⟨tail, rfl⟩ := h
  simp

theorem readCount_of_extends {bias n : Nat} (hn : n + bias < 256)
    (h : out ++ (n + bias).toUInt8 :: rest <+: desc) : readCount bias desc out.length = some n := by
  rw [readCount, getElem?_of_extends h, Option.bind_some, toNat_toUInt8 hn, if_pos (by omega),
    Nat.add_sub_cancel]

theorem readLength_of_extends {s : String} (h : FitsName s) (hp : pushLenPrefixed out s <+: desc) :
    readCount 13 desc out.length = some (nameLength s) := by
  have hshort := h.short
  rw [pushLenPrefixed_eq (by omega)] at hp
  exact readCount_of_extends (by omega) hp

theorem skipLp_of_extends {s : String} (h : FitsName s) (hp : pushLenPrefixed out s <+: desc) :
    skipLp desc out.length = some (pushLenPrefixed out s).length := by
  rw [skipLp, readLength_of_extends h hp, Option.map_some, h.length_push]

theorem readName_of_extends {α : Type} {s : String} {next : Nat → Walked α} (h : FitsName s)
    (hp : pushLenPrefixed out s <+: desc) : readName desc out.length next =
      note (.name out.length (nameLength s)) (next (pushLenPrefixed out s).length) := by
  rw [readName, readLength_of_extends h hp]
  simp only [h.length_push]

theorem readCounted_of_extends {α : Type} {bias n : Nat} {next : Nat → Nat → Walked α}
    (hn : n + bias < 256) (hp : out ++ [(n + bias).toUInt8] <+: desc) :
    readCounted desc bias out.length next =
      note (.count out.length n) (next n (out ++ [(n + bias).toUInt8]).length) := by
  rw [readCounted, readCount_of_extends hn hp]
  simp only [List.length_append, List.length_singleton]

theorem FitsName.ascii_head {name : String} {n : Nat} (h : FitsName name) (hn : n ≤ 114)
    (hout : Ascii out) : Ascii (pushHead out name n) :=
  (h.ascii_push hout).append (ascii_count (by omega))

theorem readHead_of_extends {α : Type} {name : String} {n : Nat} {next : Nat → Nat → Walked α}
    (h : FitsName name) (hn : n ≤ 114) (hp : pushHead out name n <+: desc) :
    readName desc out.length (fun pos => readCounted desc 13 pos next) =
      note (.name out.length (nameLength name))
        (note (.count (pushLenPrefixed out name).length n) (next n (pushHead out name n).length)) := by
  rw [readName_of_extends h ((List.prefix_append _ _).trans hp), readCounted_of_extends (by omega) hp]
  rfl

theorem skipHead_of_extends {name : String} {n : Nat} {next : Nat → Nat → Option Nat}
    (h : FitsName name) (hn : n ≤ 114) (hp : pushHead out name n <+: desc) :
    ((skipLp desc out.length).bind fun pos =>
      (readCount 13 desc pos).bind fun m => next m (pos + 1)) = next n (pushHead out name n).length := by
  rw [skipLp_of_extends h ((List.prefix_append _ _).trans hp), Option.bind_some,
    readCount_of_extends (by omega) hp, Option.bind_some]
  congr 1
  simp [pushHead]

end Reading

section Arms

variable {tables : TypeTables} {visiting visiting' : FxHashMap String Nat}

/-- The tags an arm pushes itself. -/
def DescriptorArm.Tagged : DescriptorArm → Prop
  | .leaf tag => tag ∈ ([1, 2, 3, 4, 5, 6, 11, 15, 17] : List UInt8)
  | .seq tag _ => tag = 7 ∨ tag = 8
  | .struct tag _ _ => tag = 12 ∨ tag = 16
  | _ => True

mutual
theorem descriptorArm_tagged (ty : OliveType) : (descriptorArm tables visiting ty).Tagged := by
  cases ty with
  | ref target | mutRef target | ptr target =>
    rw [descriptorArm]
    exact descriptorArm_tagged target
  | union members =>
    rw [descriptorArm]
    split
    · simp [DescriptorArm.Tagged]
    · cases h : soleArm tables visiting members with
      | none => simp [DescriptorArm.Tagged]
      | some arm => exact soleArm_tagged members arm h
  | struct name args isFfi =>
    rw [descriptorArm]
    split
    next => trivial
    next =>
      show _ ∨ _
      split
      · exact .inr rfl
      · exact .inl rfl
    next => simp [DescriptorArm.Tagged]
  | «enum» name args =>
    rw [descriptorArm]
    split
    next => trivial
    next => trivial
    next => simp [DescriptorArm.Tagged]
  | _ => simp [descriptorArm, DescriptorArm.Tagged]
theorem soleArm_tagged (members : List OliveType) (arm : DescriptorArm)
    (h : soleArm tables visiting members = some arm) : arm.Tagged := by
  cases members with
  | nil => simp [soleArm] at h
  | cons m ms =>
    rw [soleArm] at h
    split at h
    · exact soleArm_tagged ms arm h
    · split at h
      · obtain rfl := Option.some.inj h
        exact descriptorArm_tagged m
      · cases h
end

/-- Two arms that differ in the offset of a back-reference at most. -/
def SameArm (a b : DescriptorArm) : Prop :=
  a = b ∨ ∃ target target', a = .backref target ∧ b = .backref target'

mutual
theorem descriptorArm_congr (h : ∀ n, visiting n = none ↔ visiting' n = none) (ty : OliveType) :
    SameArm (descriptorArm tables visiting ty) (descriptorArm tables visiting' ty) := by
  have hnone : ∀ {n}, visiting n = none → visiting' n = none := fun hn => (h _).mp hn
  have hsome : ∀ {n start}, visiting n = some start → ∃ start', visiting' n = some start' := by
    intro n start hn
    refine Option.ne_none_iff_exists'.mp fun hn' => ?_
    rw [(h n).mpr hn'] at hn
    cases hn
  cases ty with
  | ref target | mutRef target | ptr target =>
    rw [descriptorArm, descriptorArm]
    exact descriptorArm_congr h target
  | union members =>
    rw [descriptorArm, descriptorArm]
    split
    · exact .inl rfl
    · rcases soleArm_congr h members with ⟨hs, hs'⟩ | ⟨a, b, hs, hs', hab⟩
      · rw [hs, hs']
        exact .inl rfl
      · rw [hs, hs']
        exact hab
  | struct name args isFfi =>
    rw [descriptorArm, descriptorArm]
    cases hl : tables.structFields.lookup name with
    | none => exact .inl rfl
    | some fields =>
      cases hv : visiting name with
      | none =>
        rw [hnone hv]
        exact .inl rfl
      | some start =>
        obtain ⟨start', hv'⟩ := hsome hv
        rw [hv']
        exact .inr ⟨start, start', rfl, rfl⟩
  | «enum» name args =>
    rw [descriptorArm, descriptorArm]
    cases hl : tables.enumDefs.lookup name with
    | none => exact .inl rfl
    | some variants =>
      cases hv : visiting name with
      | none =>
        rw [hnone hv]
        exact .inl rfl
      | some start =>
        obtain ⟨start', hv'⟩ := hsome hv
        rw [hv']
        exact .inr ⟨start, start', rfl, rfl⟩
  | _ => exact .inl (by simp only [descriptorArm])
theorem soleArm_congr (h : ∀ n, visiting n = none ↔ visiting' n = none) (members : List OliveType) :
    soleArm tables visiting members = none ∧ soleArm tables visiting' members = none ∨
      ∃ a b, soleArm tables visiting members = some a ∧ soleArm tables visiting' members = some b ∧
        SameArm a b := by
  cases members with
  | nil => exact .inl ⟨rfl, rfl⟩
  | cons m ms =>
    rw [soleArm, soleArm]
    split
    · exact soleArm_congr h ms
    · split
      · exact .inr ⟨_, _, rfl, rfl, descriptorArm_congr h m⟩
      · exact .inl ⟨rfl, rfl⟩
end

/-- `visiting` has the names in `visited`. -/
def Visits (visiting : FxHashMap String Nat) (visited : List String) : Prop :=
  ∀ name, visiting name = none ↔ name ∉ visited

theorem Visits.insert {visited : List String} (h : Visits visiting visited) (name : String)
    (start : Nat) : Visits (visiting.insert name start) (name :: visited) := by
  intro n
  by_cases hn : n = name
  · simp [FxHashMap.insert, hn]
  · rw [FxHashMap.insert_of_ne visiting start hn, h n]
    simp [hn]

theorem visits_empty : Visits .empty [] := by
  intro name
  simp

/-- Where an arm is no back-reference, the offsets do not matter to it. -/
theorem arm_of_armIn {visited : List String} (h : Visits visiting visited) (ty : OliveType) :
    SameArm (descriptorArm tables visiting ty) (armIn tables visited ty) := by
  refine descriptorArm_congr (fun name => ?_) ty
  rw [h name]
  split <;> simp_all

theorem SameArm.eq {a b : DescriptorArm} (h : SameArm a b) (hb : ∀ target, b ≠ .backref target) :
    a = b := by
  rcases h with h | ⟨target, target', -, h⟩
  · exact h
  · exact absurd h (hb target')

end Arms

end Olive
