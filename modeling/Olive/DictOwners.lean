import Olive.DictHeap
import Olive.HashMaps

/-! The strings that dictionaries own: each is the key of one entry. -/

namespace Olive

namespace Dicts

open HashTable HashTyped

/-- What a key is to the program: the content of a string, or an integer. -/
inductive Name where
  | text (bytes : List UInt8)
  | int (w : Word)
  deriving DecidableEq

def nameOf (σ : World) (w : Word) : Name :=
  if isTaggedStrKey w then .text ((σ.strBytes w).getD []) else .int w

def codeOf (rt : Runtime) : Name → Word
  | .text bytes => hashClass rt (.str bytes)
  | .int w => hashClass rt (.scalar kindInt w)

/-- The address of a slot. -/
def IsBody (a : Word) : Prop :=
  0x10000 < a.toInt ∧ a &&& 7 = 0

def IsStr (slot : Option Slot) : Prop :=
  ∃ bytes id owner, slot = some (.str bytes id owner)

/-- The string at `a` is a copy for the dictionary at `d`. -/
def Owned (σ : World) (d a : Word) : Prop :=
  ∃ bytes id, σ.slots a = some (.str bytes id (some d))

section Invariant

variable (rt : Runtime)

/-- The key of an entry. A copy that is `loose` is in no entry. -/
def KeyOk (σ : World) (loose : Option Word) (d : Word) : KeyKind → Word → Prop
  | .str, k => ∃ a bytes id, k = a ||| 3 ∧ σ.slots a = some (.str bytes id (some d)) ∧
      (∀ b ∈ bytes, b ≠ 0) ∧ loose ≠ some a
  | .int, k => isTaggedStrKey k = false

structure TableOk (σ : World) (loose : Option Word) (d : Word) (kind : KeyKind) (fields : KeyTable) :
    Prop where
  hashes : ∀ e ∈ fields, e.1 = codeOf rt (nameOf σ e.2.1)
  nodup : (names (nameOf σ) fields).Nodup
  keys : ∀ e ∈ fields, KeyOk σ loose d kind e.2.1

structure Inv (loose : Option Word) (σ : World) : Prop where
  body : ∀ a s, σ.slots a = some s → IsBody a
  table : ∀ d kind fields, σ.slots d = some (.obj kind fields) → TableOk rt σ loose d kind fields
  owned : ∀ d a, Owned σ d a → loose ≠ some a →
    ∃ fields, σ.slots d = some (.obj .str fields) ∧ ∃ e ∈ fields, e.2.1 = a ||| 3
  ids : ∀ a bytes id owner, σ.slots a = some (.str bytes id owner) →
    id < σ.births ∧ id ∉ σ.freed ∧ (id ∈ σ.copied ↔ owner ≠ none)
  apart : ∀ a b bytes bytes' id owner owner', σ.slots a = some (.str bytes id owner) →
    σ.slots b = some (.str bytes' id owner') → a = b
  freed : σ.freed.Nodup ∧ ∀ id ∈ σ.freed, id < σ.births
  copied : σ.copied.Nodup ∧ ∀ id ∈ σ.copied, id < σ.births
  copies : ∀ id ∈ σ.copied, id ∉ σ.freed → ∃ a bytes d, σ.slots a = some (.str bytes id (some d))

end Invariant

section Bits

variable {a b t : Word}

theorem word_zero_or : 0 ||| t = t :=
  BitVec.zero_or

theorem word_or_zero : t ||| 0 = t :=
  BitVec.or_zero

theorem body_and_low (h : a &&& 7 = 0) (ht : 7 &&& t = t) : a &&& t = 0 := by
  rw [← ht, ← BitVec.and_assoc, h]
  exact BitVec.zero_and

theorem body_and_high (h : a &&& 7 = 0) (ht : 7 ||| t = BitVec.allOnes 64) : a &&& t = a := by
  have hsplit : a &&& (7 ||| t) = (a &&& 7) ||| (a &&& t) := BitVec.and_or_distrib_left
  rw [ht, h, BitVec.and_allOnes, word_zero_or] at hsplit
  exact hsplit.symm

theorem body_or_toNat (h : a &&& 7 = 0) (ht : 7 &&& t = t) : (a ||| t).toNat = a.toNat + t.toNat := by
  have hmod : a.toNat % 8 = 0 := by
    rw [← Nat.and_two_pow_sub_one_eq_mod _ 3]
    exact congrArg BitVec.toNat h
  have hsmall : t.toNat < 8 := by
    rw [← ht, BitVec.toNat_and]
    exact Nat.lt_of_le_of_lt Nat.and_le_left (by decide)
  have hlt := a.isLt
  rw [← BitVec.add_eq_or_of_and_eq_zero _ _ (body_and_low h ht), BitVec.toNat_add]
  omega

theorem strBody_tag (h : a &&& 7 = 0) : strBody (a ||| 3) = a := by
  unfold strBody
  rw [BitVec.and_or_distrib_right, body_and_high h (by decide), show (3 : Word) &&& ~~~3 = 0 from by decide,
    word_or_zero]

theorem strIsHeap_tag (h : a &&& 7 = 0) : strIsHeap (a ||| 3) = true := by
  unfold strIsHeap
  rw [BitVec.and_or_distrib_right, body_and_low h (by decide), word_zero_or]
  decide

theorem isTaggedStrKey_tag (h : IsBody a) : isTaggedStrKey (a ||| 3) = true := by
  obtain ⟨hlarge, hlow⟩ := h
  have hone : (a ||| 3) &&& 1 = 1 := by
    rw [BitVec.and_or_distrib_right, body_and_low hlow (by decide), word_zero_or]
    decide
  have hrest : (a ||| 3) &&& ~~~1 = a ||| 2 := by
    rw [BitVec.and_or_distrib_right, body_and_high hlow (by decide)]
    congr 1
  have hnat := body_or_toNat hlow (show (7 : Word) &&& 2 = 2 from by decide)
  have hmod : a.toNat % 8 = 0 := by
    rw [← Nat.and_two_pow_sub_one_eq_mod _ 3]
    exact congrArg BitVec.toNat hlow
  have hint := BitVec.toInt_eq_toNat_cond a
  have hint' := BitVec.toInt_eq_toNat_cond (a ||| 2)
  rw [hnat, show (2 : Word).toNat = 2 from rfl] at hint'
  unfold isTaggedStrKey
  rw [hone, hrest, decide_eq_true_iff, BitVec.slt, decide_eq_true_iff]
  refine ⟨rfl, ?_⟩
  rw [show (0x10000 : Word).toInt = 0x10000 from rfl]
  split_ifs at hint hint' <;> omega

theorem tag_injective (ha : a &&& 7 = 0) (hb : b &&& 7 = 0) (h : a ||| 3 = b ||| 3) : a = b := by
  rw [← strBody_tag ha, h, strBody_tag hb]

end Bits

section Names

variable {σ σ' : World} {a d k : Word} {o : Option Slot}

@[simp] theorem write_slots (σ : World) (a : Word) (o : Option Slot) :
    (σ.write a o).slots = Function.update σ.slots a o := rfl

@[simp] theorem write_births : (σ.write a o).births = σ.births := rfl

@[simp] theorem write_copied : (σ.write a o).copied = σ.copied := rfl

@[simp] theorem write_freed : (σ.write a o).freed = σ.freed := rfl

/-- The content of a string depends on its slot alone. -/
theorem strBytes_congr (hslot : σ'.slots (strBody k) = σ.slots (strBody k))
    (hliterals : σ'.literals = σ.literals) : σ'.strBytes k = σ.strBytes k := by
  unfold World.strBytes
  rw [hslot, hliterals]

theorem nameOf_congr (h : isTaggedStrKey k = true → σ'.strBytes k = σ.strBytes k) :
    nameOf σ' k = nameOf σ k := by
  unfold nameOf
  split_ifs with htag
  · rw [h htag]
  · rfl

/-- A slot that is no string, and is none after. -/
theorem strBytes_write (hold : ¬ IsStr (σ.slots a)) (hnew : ¬ IsStr o) (k : Word) :
    (σ.write a o).strBytes k = σ.strBytes k := by
  have hread (slot : Option Slot) (hnot : ¬ IsStr slot) : slot.bind Slot.text = none := by
    rw [Option.bind_eq_none_iff]
    intro s hs
    cases s with
    | str bytes id owner => exact absurd ⟨bytes, id, owner, hs⟩ hnot
    | obj kind fields => rfl
    | boxed kind bits => rfl
    | other kind bits => rfl
  unfold World.strBytes
  by_cases hbody : strBody k = a
  · rw [write_slots, hbody, Function.update_self, hread o hnew, hread _ hold]
    rfl
  · rw [write_slots, Function.update_of_ne hbody]
    rfl

theorem nameOf_write (hold : ¬ IsStr (σ.slots a)) (hnew : ¬ IsStr o) (k : Word) :
    nameOf (σ.write a o) k = nameOf σ k :=
  nameOf_congr fun _ => strBytes_write hold hnew k

theorem strBytes_at {bytes : List UInt8} {id : Nat} {owner : Option Word} (hbody : IsBody a)
    (h : σ.slots a = some (.str bytes id owner)) : σ.strBytes (a ||| 3) = some bytes := by
  have hne : a ||| 3 ≠ 0 := by
    intro hzero
    have hnat := body_or_toNat hbody.2 (show (7 : Word) &&& 3 = 3 from by decide)
    rw [hzero, show (0 : Word).toNat = 0 from rfl, show (3 : Word).toNat = 3 from rfl] at hnat
    omega
  unfold World.strBytes
  rw [if_neg hne, if_pos (strIsHeap_tag hbody.2), strBody_tag hbody.2, h]
  rfl

end Names

section Primitives

variable {rt : Runtime} {σ : World} {loose loose' : Option Word} {a d : Word} {o : Option Slot}

/-- A table reads the same where its keys have the same slots. -/
theorem TableOk.frame (σ' : World) (left : Option Word) {kind : KeyKind} {fields : KeyTable}
    (h : TableOk rt σ loose d kind fields) (hbody : ∀ a s, σ.slots a = some s → IsBody a)
    (hliterals : σ'.literals = σ.literals)
    (hkept : ∀ b bytes id, σ.slots b = some (.str bytes id (some d)) → loose ≠ some b →
      σ'.slots b = some (.str bytes id (some d)) ∧ left ≠ some b) :
    TableOk rt σ' left d kind fields ∧ ∀ e ∈ fields, nameOf σ' e.2.1 = nameOf σ e.2.1 := by
  have hname : ∀ e ∈ fields, nameOf σ' e.2.1 = nameOf σ e.2.1 := by
    intro e he
    apply nameOf_congr
    intro htag
    cases kind with
    | str =>
      obtain ⟨b, bytes, id, hk, hslot, -, hne⟩ := h.keys e he
      apply strBytes_congr _ hliterals
      rw [hk, strBody_tag (hbody b _ hslot).2, hslot, (hkept b bytes id hslot hne).1]
    | int =>
      have hfalse : isTaggedStrKey e.2.1 = false := h.keys e he
      rw [hfalse] at htag
      cases htag
  refine ⟨⟨?_, ?_, ?_⟩, hname⟩
  · intro e he
    rw [hname e he]
    exact h.hashes e he
  · have hnames : names (nameOf σ') fields = names (nameOf σ) fields := List.map_congr_left hname
    rw [hnames]
    exact h.nodup
  · intro e he
    cases kind with
    | str =>
      obtain ⟨b, bytes, id, hk, hslot, hzero, hne⟩ := h.keys e he
      obtain ⟨hslot', hne'⟩ := hkept b bytes id hslot hne
      exact ⟨b, bytes, id, hk, hslot', hzero, hne'⟩
    | int => exact h.keys e he

/-- A write to a slot that is no string: what it owns has to be in what is written. -/
theorem Inv.write (h : Inv rt loose σ) (hbody : ∀ s, o = some s → IsBody a)
    (hold : ¬ IsStr (σ.slots a)) (hnew : ¬ IsStr o) (hloose : ∀ b, loose = some b → Owned σ a b)
    (hloose' : ∀ b, loose' = some b → Owned σ a b)
    (htable : ∀ kind fields, o = some (.obj kind fields) → TableOk rt σ loose' a kind fields)
    (howned : ∀ b, Owned σ a b → loose' ≠ some b →
      ∃ fields, o = some (.obj .str fields) ∧ ∃ e ∈ fields, e.2.1 = b ||| 3) :
    Inv rt loose' (σ.write a o) := by
  have hstr {b : Word} {bytes : List UInt8} {id : Nat} {owner : Option Word} :
      (σ.write a o).slots b = some (.str bytes id owner) ↔
        σ.slots b = some (.str bytes id owner) := by
    rw [write_slots]
    by_cases hb : b = a
    · rw [hb, Function.update_self]
      exact ⟨fun he => absurd ⟨_, _, _, he⟩ hnew, fun he => absurd ⟨_, _, _, he⟩ hold⟩
    · rw [Function.update_of_ne hb]
  -- of an owned string there is one owner
  have hother {b c : Word} {bytes : List UInt8} {id : Nat} (hc : c ≠ a)
      (hb : σ.slots b = some (.str bytes id (some c))) (hany : Option Word)
      (hany' : ∀ x, hany = some x → Owned σ a x) : hany ≠ some b := by
    intro he
    obtain ⟨bytes', id', hb'⟩ := hany' b he
    rw [hb] at hb'
    cases hb'
    exact hc rfl
  constructor
  · intro x s hx
    rw [write_slots] at hx
    by_cases hxa : x = a
    · rw [hxa, Function.update_self] at hx
      rw [hxa]
      exact hbody s hx
    · rw [Function.update_of_ne hxa] at hx
      exact h.body x s hx
  · intro c kind fields hc
    rw [write_slots] at hc
    by_cases hca : c = a
    · rw [hca, Function.update_self] at hc
      rw [hca]
      exact ((htable kind fields hc).frame (σ.write a o) loose' h.body rfl fun b bytes id hb hne => ⟨hstr.mpr hb, hne⟩).1
    · rw [Function.update_of_ne hca] at hc
      exact ((h.table c kind fields hc).frame (σ.write a o) loose' h.body rfl fun b bytes id hb _ =>
        ⟨hstr.mpr hb, hother hca hb loose' hloose'⟩).1
  · intro c b hb hne
    obtain ⟨bytes, id, hslot⟩ := hb
    rw [hstr] at hslot
    rw [write_slots]
    by_cases hca : c = a
    · rw [hca, Function.update_self]
      exact howned b ⟨bytes, id, hca ▸ hslot⟩ hne
    · rw [Function.update_of_ne hca]
      exact h.owned c b ⟨bytes, id, hslot⟩ (hother hca hslot loose hloose)
  · intro b bytes id owner hb
    exact h.ids b bytes id owner (hstr.mp hb)
  · intro b c bytes bytes' id owner owner' hb hc
    exact h.apart b c bytes bytes' id owner owner' (hstr.mp hb) (hstr.mp hc)
  · exact h.freed
  · exact h.copied
  · intro id hid hlive
    obtain ⟨b, bytes, c, hb⟩ := h.copies id hid hlive
    exact ⟨b, bytes, c, hstr.mpr hb⟩

/-- A new string. -/
def born (σ : World) (a : Word) (bytes : List UInt8) (owner : Option Word) : World :=
  { σ.write a (some (.str bytes σ.births owner)) with
    births := σ.births + 1
    copied := if owner = none then σ.copied else σ.births :: σ.copied }

/-- A new copy is loose. -/
theorem Inv.born {bytes : List UInt8} {owner : Option Word} (h : Inv rt none σ) (hfresh : Fresh σ a) :
    Inv rt (if owner = none then none else some a) (born σ a bytes owner) := by
  obtain ⟨hnone, hlarge, hlow⟩ := hfresh
  have hslots (x : Word) : (Dicts.born σ a bytes owner).slots x =
      if x = a then some (.str bytes σ.births owner) else σ.slots x :=
    Function.update_apply ..
  have hother {x : Word} {s : Slot} (hx : σ.slots x = some s) :
      (Dicts.born σ a bytes owner).slots x = some s ∧ x ≠ a := by
    have hne : x ≠ a := by
      intro he
      rw [he, hnone] at hx
      cases hx
    rw [hslots, if_neg hne]
    exact ⟨hx, hne⟩
  have hcopied (id : Nat) : id ∈ (Dicts.born σ a bytes owner).copied ↔
      (owner ≠ none ∧ id = σ.births) ∨ id ∈ σ.copied := by
    unfold Dicts.born
    by_cases ho : owner = none
    · simp [ho]
    · simp [ho]
  have hcases {x : Word} {s : Slot} (hx : (Dicts.born σ a bytes owner).slots x = some s) :
      (x = a ∧ s = .str bytes σ.births owner) ∨ σ.slots x = some s := by
    rw [hslots] at hx
    split_ifs at hx with hxa
    · exact .inl ⟨hxa, (Option.some.inj hx).symm⟩
    · exact .inr hx
  constructor
  · intro x s hx
    rcases hcases hx with ⟨rfl, -⟩ | hx
    · exact ⟨hlarge, hlow⟩
    · exact h.body x s hx
  · intro c kind fields hc
    rcases hcases hc with ⟨-, he⟩ | hc
    · cases he
    · refine ((h.table c kind fields hc).frame (Dicts.born σ a bytes owner) _ h.body rfl ?_).1
      intro b bytes' id hb hne
      refine ⟨(hother hb).1, ?_⟩
      split_ifs
      · exact hne
      · intro he
        exact (hother hb).2 (Option.some.inj he).symm
  · intro c b hb hne
    obtain ⟨bytes', id, hb⟩ := hb
    rcases hcases hb with ⟨rfl, he⟩ | hb
    · cases he
      exact absurd rfl hne
    · obtain ⟨fields, hc, hentry⟩ := h.owned c b ⟨bytes', id, hb⟩ (fun he => nomatch he)
      exact ⟨fields, (hother hc).1, hentry⟩
  · intro b bytes' id owner' hb
    have hbirths : (Dicts.born σ a bytes owner).births = σ.births + 1 := rfl
    have hfreed : (Dicts.born σ a bytes owner).freed = σ.freed := rfl
    rw [hbirths, hfreed, hcopied]
    rcases hcases hb with ⟨rfl, he⟩ | hb
    · cases he
      have hnotFreed : σ.births ∉ σ.freed := fun hmem => Nat.lt_irrefl _ (h.freed.2 _ hmem)
      have hnotCopied : σ.births ∉ σ.copied := fun hmem => Nat.lt_irrefl _ (h.copied.2 _ hmem)
      exact ⟨Nat.lt_succ_self _, hnotFreed, fun hor => (hor.resolve_right hnotCopied).1,
        fun ho => .inl ⟨ho, rfl⟩⟩
    · obtain ⟨hlt, hfreed, hiff⟩ := h.ids b bytes' id owner' hb
      refine ⟨by omega, hfreed, ?_⟩
      rw [← hiff]
      constructor
      · rintro (⟨-, he⟩ | hmem)
        · omega
        · exact hmem
      · exact .inr
  · intro b c bytes' bytes'' id owner' owner'' hb hc
    rcases hcases hb with ⟨hba, he⟩ | hb' <;> rcases hcases hc with ⟨hca, he'⟩ | hc'
    · rw [hba, hca]
    · cases he
      exact absurd (h.ids _ _ _ _ hc').1 (Nat.lt_irrefl _)
    · cases he'
      exact absurd (h.ids _ _ _ _ hb').1 (Nat.lt_irrefl _)
    · exact h.apart b c _ _ _ _ _ hb' hc'
  · exact ⟨h.freed.1, fun id hid => Nat.lt_succ_of_lt (h.freed.2 id hid)⟩
  · refine ⟨?_, ?_⟩
    · unfold Dicts.born
      by_cases ho : owner = none
      · simpa [ho] using h.copied.1
      · have hnot : σ.births ∉ σ.copied := fun hmem => Nat.lt_irrefl _ (h.copied.2 _ hmem)
        simpa [ho] using ⟨hnot, h.copied.1⟩
    · intro id hid
      rw [hcopied] at hid
      rcases hid with ⟨-, rfl⟩ | hid
      · exact Nat.lt_succ_self _
      · exact Nat.lt_succ_of_lt (h.copied.2 id hid)
  · intro id hid hlive
    rw [hcopied] at hid
    rcases hid with ⟨ho, rfl⟩ | hid
    · obtain ⟨d, rfl⟩ := Option.ne_none_iff_exists'.mp ho
      exact ⟨a, bytes, d, by rw [hslots, if_pos rfl]⟩
    · obtain ⟨b, bytes', c, hb⟩ := h.copies id hid hlive
      exact ⟨b, bytes', c, (hother hb).1⟩

/-- A string that is free. -/
def gone (σ : World) (a : Word) (id : Nat) : World :=
  { σ.release a with freed := id :: σ.freed }

/-- A string that is in no entry may go: one of the caller, or a loose copy. -/
theorem Inv.gone {bytes : List UInt8} {id : Nat} {owner : Option Word} (h : Inv rt loose σ)
    (ha : σ.slots a = some (.str bytes id owner))
    (hfree : owner = none ∧ loose = none ∨ loose = some a) : Inv rt none (gone σ a id) := by
  have hslots (x : Word) : (Dicts.gone σ a id).slots x = if x = a then none else σ.slots x :=
    Function.update_apply ..
  have hback {x : Word} {s : Slot} (hx : (Dicts.gone σ a id).slots x = some s) :
      x ≠ a ∧ σ.slots x = some s := by
    rw [hslots] at hx
    split_ifs at hx with hxa
    exact ⟨hxa, hx⟩
  have hkept {x : Word} (hx : x ≠ a) : (Dicts.gone σ a id).slots x = σ.slots x := by
    rw [hslots, if_neg hx]
  constructor
  · intro x s hx
    exact h.body x s (hback hx).2
  · intro c kind fields hc
    refine ((h.table c kind fields (hback hc).2).frame (Dicts.gone σ a id) none h.body rfl ?_).1
    intro b bytes' id' hb hne
    have hba : b ≠ a := by
      rintro rfl
      rcases hfree with ⟨ho, -⟩ | hl
      · rw [ha, ho] at hb
        cases hb
      · exact hne hl
    exact ⟨by rw [hkept hba, hb], fun he => nomatch he⟩
  · intro c b hb _
    obtain ⟨bytes', id', hb⟩ := hb
    obtain ⟨hba, hb⟩ := hback hb
    have hne : loose ≠ some b := by
      intro he
      rcases hfree with ⟨-, hl⟩ | hl
      · rw [hl] at he
        cases he
      · rw [hl] at he
        exact hba (Option.some.inj he).symm
    obtain ⟨fields, hc, hentry⟩ := h.owned c b ⟨bytes', id', hb⟩ hne
    refine ⟨fields, ?_, hentry⟩
    rw [hkept, hc]
    rintro rfl
    rw [ha] at hc
    cases hc
  · intro b bytes' id' owner' hb
    obtain ⟨hba, hb'⟩ := hback hb
    obtain ⟨hlt, hfreed, hiff⟩ := h.ids b bytes' id' owner' hb'
    refine ⟨hlt, ?_, hiff⟩
    intro hmem
    rcases List.mem_cons.mp hmem with he | hmem
    · rw [he] at hb'
      exact hba (h.apart b a _ _ _ _ _ hb' ha)
    · exact hfreed hmem
  · intro b c bytes' bytes'' id' owner' owner'' hb hc
    exact h.apart b c _ _ _ _ _ (hback hb).2 (hback hc).2
  · obtain ⟨hlt, hfreed, -⟩ := h.ids a bytes id owner ha
    exact ⟨List.nodup_cons.mpr ⟨hfreed, h.freed.1⟩, List.forall_mem_cons.mpr ⟨hlt, h.freed.2⟩⟩
  · exact h.copied
  · intro id' hid hlive
    have hlive' : id' ≠ id ∧ id' ∉ σ.freed := by
      have : id' ∉ id :: σ.freed := hlive
      rwa [List.mem_cons, not_or] at this
    obtain ⟨b, bytes', c, hb⟩ := h.copies id' hid hlive'.2
    refine ⟨b, bytes', c, ?_⟩
    rw [hkept, hb]
    rintro rfl
    rw [ha] at hb
    cases hb
    exact hlive'.1 rfl

end Primitives

end Dicts

end Olive
