import Olive.DictMap
import Olive.JsonValues

/-! The words of a container say what they are: a JSON array or object that is put on the heap is read
back as it was. -/

namespace Olive

namespace Dicts

namespace Json

open AnyBinop HashTable HashTyped

section Domain

/-- The integers of 64 bits and the finite floats. -/
def Number.Plain : Number → Prop
  | .posInt n => n < 2 ^ 63
  | .negInt i => -2 ^ 63 ≤ i ∧ i < 0
  | .float bits => isFinite bits = true

def PlainText (s : List Char) : Prop := ∀ c ∈ s, c ≠ '\x00'

mutual

/-- Numbers that fit, texts without a nul, and the entries of objects in the order of their keys. -/
def Value.Plain : Value → Prop
  | .null => True
  | .bool _ => True
  | .number n => n.Plain
  | .string s => PlainText s
  | .array elems => PlainAll elems
  | .object entries => SortedEntries.Sorted entries ∧ PlainEntries entries

def PlainAll : List Value → Prop
  | [] => True
  | v :: rest => v.Plain ∧ PlainAll rest

def PlainEntries : List (List Char × Value) → Prop
  | [] => True
  | (k, v) :: rest => PlainText k ∧ v.Plain ∧ PlainEntries rest

end

mutual

/-- How deep the containers are nested. -/
def Value.depth : Value → Nat
  | .null => 0
  | .bool _ => 0
  | .number _ => 0
  | .string _ => 0
  | .array elems => depthAll elems + 1
  | .object entries => depthEntries entries + 1

def depthAll : List Value → Nat
  | [] => 0
  | v :: rest => max v.depth (depthAll rest)

def depthEntries : List (List Char × Value) → Nat
  | [] => 0
  | (_, v) :: rest => max v.depth (depthEntries rest)

end

end Domain

section Representation

variable (rt : JsonRuntime) (σ : Heap)

/-- A string of its own at the word. -/
def HoldsText (w : Word) (s : List Char) : Prop :=
  ∃ a id, IsBody a ∧ w = a ||| 3 ∧ σ.slots a = some (.str (Utf8.encode s) id none)

def HoldsBox (w kind bits : Word) : Prop :=
  IsBody w ∧ σ.slots w = some (.boxed kind bits)

def HoldsNumber (w : Word) : Number → Prop
  | .float bits => HoldsBox σ w kindFloat bits
  | n => ∃ i, n.asI64 = some i ∧
      (w = tagged i ∧ anyIntMin ≤ i.toInt ∧ i.toInt ≤ anyIntMax ∨ HoldsBox σ w AnyBinop.kindInt i)

mutual

/-- The word is the value, and what it points to. -/
def Holds (w : Word) : Value → Prop
  | .null => w = tagNull
  | .bool b => w = oliveBoxBool b
  | .number n => HoldsNumber σ w n
  | .string s => HoldsText σ w s
  | .array elems => IsBody w ∧ σ.slots w = some (.other kindList 0) ∧
      ∃ words, σ.lists w = some words ∧ HoldsAll words elems
  | .object entries => IsBody w ∧
      ∃ fields, σ.slots w = some (.obj .str fields) ∧ HoldsEntries fields entries

def HoldsAll : List Word → List Value → Prop
  | [], [] => True
  | w :: words, v :: rest => Holds w v ∧ HoldsAll words rest
  | _, _ => False

def HoldsEntries : KeyTable → List (List Char × Value) → Prop
  | [], [] => True
  | e :: fields, (k, v) :: rest => e.1 = codeOf rt.toRuntime (.text (Utf8.encode k)) ∧
      HoldsText σ e.2.1 k ∧ Holds e.2.2 v ∧ HoldsEntries fields rest
  | _, _ => False

end

end Representation

/-- What is live stays as it is. -/
structure Extends (σ σ' : Heap) : Prop where
  slots : ∀ a s, σ.slots a = some s → σ'.slots a = some s
  lists : ∀ a s, σ.slots a = some s → σ'.lists a = σ.lists a

section Frames

variable {rt : JsonRuntime} {σ σ' σ'' : Heap} {w : Word}

theorem Extends.refl (σ : Heap) : Extends σ σ :=
  ⟨fun _ _ h => h, fun _ _ _ => rfl⟩

theorem Extends.trans (h : Extends σ σ') (h' : Extends σ' σ'') : Extends σ σ'' where
  slots a s hs := h'.slots a s (h.slots a s hs)
  lists a s hs := (h'.lists a s (h.slots a s hs)).trans (h.lists a s hs)

theorem HoldsText.kept {s : List Char} (h : HoldsText σ w s) (he : Extends σ σ') :
    HoldsText σ' w s := by
  obtain ⟨a, id, hbody, hw, hslot⟩ := h
  exact ⟨a, id, hbody, hw, he.slots a _ hslot⟩

theorem HoldsBox.kept {kind bits : Word} (h : HoldsBox σ w kind bits) (he : Extends σ σ') :
    HoldsBox σ' w kind bits :=
  ⟨h.1, he.slots w _ h.2⟩

theorem HoldsNumber.kept {n : Number} (h : HoldsNumber σ w n) (he : Extends σ σ') :
    HoldsNumber σ' w n := by
  cases n with
  | float bits => exact HoldsBox.kept h he
  | posInt n =>
    obtain ⟨i, hi, hw | hbox⟩ := h
    · exact ⟨i, hi, .inl hw⟩
    · exact ⟨i, hi, .inr (hbox.kept he)⟩
  | negInt n =>
    obtain ⟨i, hi, hw | hbox⟩ := h
    · exact ⟨i, hi, .inl hw⟩
    · exact ⟨i, hi, .inr (hbox.kept he)⟩

mutual

theorem Holds.kept (he : Extends σ σ') {w : Word} : ∀ {v : Value}, Holds rt σ w v → Holds rt σ' w v
  | .null, h => h
  | .bool _, h => h
  | .number _, h => HoldsNumber.kept h he
  | .string _, h => HoldsText.kept h he
  | .array _, h => by
    obtain ⟨hbody, hslot, words, hwords, hall⟩ := h
    exact ⟨hbody, he.slots w _ hslot, words, (he.lists w _ hslot).trans hwords, HoldsAll.kept he hall⟩
  | .object _, h => by
    obtain ⟨hbody, fields, hslot, hall⟩ := h
    exact ⟨hbody, fields, he.slots w _ hslot, HoldsEntries.kept he hall⟩

theorem HoldsAll.kept (he : Extends σ σ') :
    ∀ {words : List Word} {values : List Value}, HoldsAll rt σ words values → HoldsAll rt σ' words values
  | [], [], h => h
  | _ :: _, _ :: _, h => ⟨Holds.kept he h.1, HoldsAll.kept he h.2⟩

theorem HoldsEntries.kept (he : Extends σ σ') :
    ∀ {fields : KeyTable} {entries : List (List Char × Value)},
      HoldsEntries rt σ fields entries → HoldsEntries rt σ' fields entries
  | [], [], h => h
  | _ :: _, (_, _) :: _, h =>
    ⟨h.1, h.2.1.kept he, Holds.kept he h.2.2.1, HoldsEntries.kept he h.2.2.2⟩

end

end Frames

section Decoding

variable {rt : JsonRuntime} {σ : Heap} {w i : Word} {depth : Nat}

theorem ofI64_asI64 {n : Number} (hp : n.Plain) (h : n.asI64 = some i) : Number.ofI64 i = n := by
  cases n with
  | float bits => cases h
  | posInt n =>
    unfold Number.Plain at hp
    rw [Number.asI64, if_pos hp] at h
    obtain rfl := Option.some.inj h
    have hint : (BitVec.ofNat 64 n).toInt = n := by
      rw [BitVec.toInt_eq_toNat_cond, BitVec.toNat_ofNat, Nat.mod_eq_of_lt (by omega)]
      split <;> omega
    unfold Number.ofI64
    rw [hint, if_neg (by omega), Int.toNat_natCast]
  | negInt z =>
    unfold Number.Plain at hp
    obtain rfl := Option.some.inj h
    have hint : (BitVec.ofInt 64 z).toInt = z := by
      rw [BitVec.toInt_ofInt, Int.bmod_def]
      split <;> omega
    unfold Number.ofI64
    rw [hint, if_pos hp.2]

/-- A word that is an address is read by the kind there. -/
theorem oliveToJson_body (hbody : IsBody w) {slot : Slot} (hslot : σ.slots w = some slot) :
    oliveToJson rt (depth + 1) σ w =
      (let kind := slot.kind rt.toRuntime
      if kind = AnyBinop.kindInt then .ok (.number (.ofI64 (slot.bits rt.toRuntime)))
      else if kind = kindFloat then .ok ((Number.fromF64 (slot.bits rt.toRuntime)).elim .null .number)
      else if kind = kindList ∨ kind = kindAnyList then
        (reads (σ.lists w)).bind fun words =>
          (decodeAll (oliveToJson rt depth σ) words).map .array
      else if kind = kindObj then
        (σ.fields w).bind fun (_, fields) =>
          (decodeEntries σ (oliveToJson rt depth σ) [] (rt.iterate fields)).map .object
      else .ok (.number (.ofI64 w))) := by
  obtain ⟨hlarge, haligned⟩ := hbody
  have hzero : w ≠ 0 := by
    rintro rfl
    exact absurd hlarge (by decide)
  have hmask : w &&& tagMask = 0 := haligned
  have hodd : w &&& 1 = 0 := body_and_low haligned (by decide)
  rw [oliveToJson, if_neg hzero, hmask, if_neg (by decide), if_neg (by decide), if_neg (by decide),
    if_neg (fun h => h.2 hodd), if_neg (fun h => by unfold minHeapPtr at h; omega),
    if_neg (by omega), hslot]
  rfl

/-- The word of a string is odd and no address. -/
theorem tag_word {a : Word} (h : IsBody a) : 0x10000 < (a ||| 3).toInt ∧ (a ||| 3) &&& 1 = 1 ∧
    (a ||| 3) &&& tagMask = 3 := by
  obtain ⟨hlarge, hlow⟩ := h
  have hone : (a ||| 3) &&& 1 = 1 := by
    rw [BitVec.and_or_distrib_right, body_and_low hlow (by decide), word_zero_or]
    decide
  have hseven : (a ||| 3) &&& tagMask = 3 := by
    rw [BitVec.and_or_distrib_right, show a &&& tagMask = 0 from hlow, word_zero_or]
    decide
  have hnat := body_or_toNat hlow (show (7 : Word) &&& 3 = 3 from by decide)
  have hmod : a.toNat % 8 = 0 := by
    rw [← Nat.and_two_pow_sub_one_eq_mod _ 3]
    exact congrArg BitVec.toNat hlow
  have hint := BitVec.toInt_eq_toNat_cond a
  have hint' := BitVec.toInt_eq_toNat_cond (a ||| 3)
  rw [hnat, show (3 : Word).toNat = 3 from rfl] at hint'
  refine ⟨?_, hone, hseven⟩
  split_ifs at hint hint' <;> omega

theorem oliveToJson_text {s : List Char} (h : HoldsText σ w s) :
    oliveToJson rt (depth + 1) σ w = .ok (.string s) := by
  obtain ⟨a, id, hbody, rfl, hslot⟩ := h
  obtain ⟨hlarge, hone, hmask⟩ := tag_word hbody
  have hzero : a ||| 3 ≠ 0 := by
    intro h0
    rw [h0] at hlarge
    exact absurd hlarge (by decide)
  rw [oliveToJson, if_neg hzero, hmask, if_neg (by decide), if_neg (by decide), if_neg (by decide),
    if_pos ⟨hlarge, by rw [hone]; decide⟩, strBytes_at hbody hslot]
  show Except.ok (Value.string (Utf8.decodeLossy (Utf8.encode s))) = _
  rw [Utf8.decodeLossy_encode]

theorem oliveToJson_tagged (hrange : anyIntMin ≤ i.toInt ∧ i.toInt ≤ anyIntMax) :
    oliveToJson rt (depth + 1) σ (tagged i) = .ok (.number (.ofI64 i)) := by
  have hmask := tagged_mask i
  have hzero : tagged i ≠ 0 := by
    intro h0
    rw [h0] at hmask
    exact absurd hmask (by decide)
  rw [oliveToJson, if_neg hzero, if_pos hmask, tagged_payload hrange]

theorem oliveToJson_number {n : Number} (hp : n.Plain) (h : HoldsNumber σ w n) :
    oliveToJson rt (depth + 1) σ w = .ok (.number n) := by
  have hint : ∀ {i : Word}, n.asI64 = some i →
      (w = tagged i ∧ anyIntMin ≤ i.toInt ∧ i.toInt ≤ anyIntMax ∨ HoldsBox σ w AnyBinop.kindInt i) →
        oliveToJson rt (depth + 1) σ w = .ok (.number n) := by
    rintro i hi (⟨rfl, hrange⟩ | ⟨hbody, hslot⟩)
    · rw [oliveToJson_tagged hrange, ofI64_asI64 hp hi]
    · rw [oliveToJson_body hbody hslot]
      show Except.ok (Value.number (.ofI64 i)) = _
      rw [ofI64_asI64 hp hi]
  cases n with
  | posInt n =>
    obtain ⟨i, hi, hw⟩ := h
    exact hint hi hw
  | negInt z =>
    obtain ⟨i, hi, hw⟩ := h
    exact hint hi hw
  | float bits =>
    obtain ⟨hbody, hslot⟩ := h
    unfold Number.Plain at hp
    rw [oliveToJson_body hbody hslot]
    show Except.ok ((Number.fromF64 bits).elim Value.null Value.number) = _
    rw [Number.fromF64, if_pos hp]
    rfl

theorem decodeEntries_eq {decode : Word → Outcome Value} {fields : KeyTable}
    {values : List (List Char × Value)} {map : List (List Char × Value)}
    (h : List.Forall₂ (fun e kv => HoldsText σ e.2.1 kv.1 ∧ decode e.2.2 = .ok kv.2) fields values) :
    decodeEntries σ decode map fields =
      .ok (values.foldl (fun map e => SortedEntries.insert e.1 e.2 map) map) := by
  induction h generalizing map with
  | nil => rfl
  | @cons e kv fields values hfirst hrest ih =>
    obtain ⟨⟨a, id, hbody, hw, hslot⟩, hvalue⟩ := hfirst
    rw [decodeEntries, hw, strBytes_at hbody hslot]
    show (decode e.2.2).bind _ = _
    rw [hvalue]
    show decodeEntries σ decode (SortedEntries.insert (Utf8.decodeLossy (Utf8.encode kv.1)) kv.2 map)
      fields = _
    rw [Utf8.decodeLossy_encode, ih]
    rfl

mutual

/-- What a word holds is read back, to the depth that it is nested. -/
theorem oliveToJson_holds : ∀ {v : Value} {w : Word} {depth : Nat}, v.Plain → Holds rt σ w v →
    v.depth ≤ depth → oliveToJson rt (depth + 1) σ w = .ok v
  | .null, w, depth, _, h, _ => by
    obtain rfl : w = tagNull := h
    rfl
  | .bool b, w, depth, _, h, _ => by
    obtain rfl : w = oliveBoxBool b := h
    cases b <;> rfl
  | .number n, w, depth, hp, h, _ => oliveToJson_number hp h
  | .string s, w, depth, _, h, _ => oliveToJson_text h
  | .array elems, w, depth, hp, h, hdepth => by
    obtain ⟨hbody, hslot, words, hwords, hall⟩ := h
    obtain ⟨inner, rfl⟩ : ∃ inner, depth = inner + 1 := ⟨depth - 1, by
      unfold Value.depth at hdepth
      omega⟩
    have hvalues := decodeAll_holds hp hall (Nat.le_of_succ_le_succ hdepth)
    rw [oliveToJson_body hbody hslot, hwords]
    show (decodeAll (oliveToJson rt (inner + 1) σ) words).map Value.array = _
    rw [hvalues]
    rfl
  | .object entries, w, depth, hp, h, hdepth => by
    obtain ⟨hbody, fields, hslot, hall⟩ := h
    obtain ⟨inner, rfl⟩ : ∃ inner, depth = inner + 1 := ⟨depth - 1, by
      unfold Value.depth at hdepth
      omega⟩
    have hvalues := forall₂_holds hp.2 hall (Nat.le_of_succ_le_succ hdepth)
    -- The map may yield the entries in any order.
    obtain ⟨other, hother, hperm⟩ := List.perm_comp_forall₂ (rt.iterate_perm fields) hvalues
    have hfields : σ.fields w = .ok (.str, fields) := by
      unfold World.fields
      rw [hslot]
    rw [oliveToJson_body hbody hslot, hfields]
    show (decodeEntries σ (oliveToJson rt (inner + 1) σ) [] (rt.iterate fields)).map Value.object = _
    rw [decodeEntries_eq hother, SortedEntries.foldl_insert hp.1 hperm]
    rfl

theorem decodeAll_holds : ∀ {values : List Value} {words : List Word} {depth : Nat}, PlainAll values →
    HoldsAll rt σ words values → depthAll values ≤ depth →
      decodeAll (oliveToJson rt (depth + 1) σ) words = .ok values
  | [], [], _, _, _, _ => rfl
  | v :: values, w :: words, depth, hp, h, hdepth => by
    have hfirst := oliveToJson_holds hp.1 h.1 ((le_max_left _ _).trans hdepth)
    have hrest := decodeAll_holds hp.2 h.2 ((le_max_right _ _).trans hdepth)
    rw [decodeAll, hfirst]
    show (decodeAll _ words).map _ = _
    rw [hrest]
    rfl

theorem forall₂_holds : ∀ {entries : List (List Char × Value)} {fields : KeyTable} {depth : Nat},
    PlainEntries entries → HoldsEntries rt σ fields entries → depthEntries entries ≤ depth →
      List.Forall₂ (fun e kv => HoldsText σ e.2.1 kv.1 ∧
        oliveToJson rt (depth + 1) σ e.2.2 = .ok kv.2) fields entries
  | [], [], _, _, _, _ => .nil
  | _ :: _, _ :: _, _, hp, h, hdepth =>
    .cons ⟨h.2.1, oliveToJson_holds hp.2.1 h.2.2.1 ((le_max_left _ _).trans hdepth)⟩
      (forall₂_holds hp.2.2 h.2.2.2 ((le_max_right _ _).trans hdepth))

end

end Decoding

section Encoding

variable {rt : JsonRuntime} {σ : Heap}

/-- A conversion goes through with `P`, or the memory is full. -/
def Done {α : Type} (P : α → Prop) (out : Outcome α) : Prop :=
  (∃ x, out = .ok x ∧ P x) ∨ out = .error .outOfMemory

theorem Done.ok {α : Type} {P : α → Prop} {x : α} (h : P x) : Done P (.ok x) :=
  .inl ⟨x, rfl, h⟩

theorem Done.imp {α : Type} {P Q : α → Prop} {out : Outcome α} (h : Done P out)
    (hf : ∀ x, P x → Q x) : Done Q out := by
  rcases h with ⟨x, rfl, hx⟩ | rfl
  · exact .inl ⟨x, rfl, hf x hx⟩
  · exact .inr rfl

theorem Done.bind {α β : Type} {P : α → Prop} {Q : β → Prop} {out : Outcome α} {f : α → Outcome β}
    (h : Done P out) (hf : ∀ x, P x → Done Q (f x)) : Done Q (out.bind f) := by
  rcases h with ⟨x, rfl, hx⟩ | rfl
  · exact hf x hx
  · exact .inr rfl

theorem Done.map {α β : Type} {P : α → Prop} {Q : β → Prop} {out : Outcome α} {f : α → β}
    (h : Done P out) (hf : ∀ x, P x → Q (f x)) : Done Q (out.map f) := by
  rcases h with ⟨x, rfl, hx⟩ | rfl
  · exact .inl ⟨f x, rfl, hf x hx⟩
  · exact .inr rfl

/-- A new slot leaves what is live as it is. -/
theorem allocSlot_done (σ : Heap) (slot : Slot) :
    Done (fun out : World × Word => IsBody out.2 ∧ σ.slots out.2 = none ∧
      out.1 = σ.toWorld.put out.2 slot) (allocSlot rt.toRuntime σ.toWorld slot) := by
  unfold allocSlot
  cases hnext : rt.next σ.toWorld with
  | none => exact .inr rfl
  | some a =>
    obtain ⟨hfree, hlarge, haligned⟩ := rt.next_fresh σ.toWorld a hnext
    exact .ok ⟨⟨hlarge, haligned⟩, hfree, rfl⟩

theorem extends_put {a : Word} {slot : Slot} {σ' : Heap} (hfree : σ.slots a = none)
    (hslots : σ'.slots = Function.update σ.slots a (some slot)) (hlists : ∀ b ≠ a, σ'.lists b = σ.lists b) :
    Extends σ σ' where
  slots b s hb := by
    have hne : b ≠ a := by
      rintro rfl
      rw [hfree] at hb
      cases hb
    rw [hslots, Function.update_of_ne hne, hb]
  lists b s hb := by
    apply hlists
    rintro rfl
    rw [hfree] at hb
    cases hb

theorem strInternal_done (σ : Heap) {s : List Char} (hs : PlainText s) :
    Done (fun out : Heap × Word => Extends σ out.1 ∧ HoldsText out.1 out.2 s)
      (strInternal rt σ s) := by
  have hfilter : (Utf8.encode s).filter (· ≠ 0) = Utf8.encode s := by
    rw [Utf8.filter_encode, List.filter_eq_self.mpr (fun c hc => by simpa using hs c hc)]
  unfold strInternal strAlloc
  rw [hfilter]
  cases hnext : rt.next σ.toWorld with
  | none => exact .inr rfl
  | some a =>
    obtain ⟨hfree, hlarge, haligned⟩ := rt.next_fresh σ.toWorld a hnext
    exact .ok ⟨extends_put hfree rfl fun _ _ => rfl, a, σ.births, ⟨hlarge, haligned⟩, rfl,
      Function.update_self ..⟩

theorem heapBox_done (σ : Heap) (kind bits : Word) :
    Done (fun out : Heap × Word => Extends σ out.1 ∧ HoldsBox out.1 out.2 kind bits)
      (heapBox rt σ kind bits) := by
  refine (allocSlot_done σ _).map ?_
  rintro ⟨after, a⟩ ⟨hbody, hfree, hafter⟩
  obtain rfl : after = σ.put a (.boxed kind bits) := hafter
  exact ⟨extends_put hfree rfl fun _ _ => rfl, hbody, Function.update_self ..⟩

theorem oliveBoxInt_done (σ : Heap) (i : Word) :
    Done (fun out : Heap × Word => Extends σ out.1 ∧
      (out.2 = tagged i ∧ anyIntMin ≤ i.toInt ∧ i.toInt ≤ anyIntMax ∨
        HoldsBox out.1 out.2 AnyBinop.kindInt i)) (oliveBoxInt rt σ i) := by
  unfold oliveBoxInt
  split
  next hrange => exact .ok ⟨Extends.refl σ, .inl ⟨rfl, hrange⟩⟩
  next => exact (heapBox_done σ _ i).imp fun _ h => ⟨h.1, .inr h.2⟩

theorem listFromVec_done (σ : Heap) (words : List Word) :
    Done (fun out : Heap × Word => Extends σ out.1 ∧ IsBody out.2 ∧
      out.1.slots out.2 = some (.other kindList 0) ∧ out.1.lists out.2 = some words)
      (listFromVec rt σ words) := by
  refine (allocSlot_done σ _).map ?_
  rintro ⟨after, a⟩ ⟨hbody, hfree, hafter⟩
  obtain rfl : after = σ.put a (.other kindList 0) := hafter
  exact ⟨extends_put hfree rfl fun b hb => Function.update_of_ne hb _ _, hbody,
    Function.update_self .., Function.update_self ..⟩

theorem newObjFromMap_done (σ : Heap) (fields : KeyTable) :
    Done (fun out : Heap × Word => Extends σ out.1 ∧ IsBody out.2 ∧
      out.1.slots out.2 = some (.obj .str fields)) (newObjFromMap rt σ fields) := by
  refine (allocSlot_done σ _).map ?_
  rintro ⟨after, a⟩ ⟨hbody, hfree, hafter⟩
  obtain rfl : after = σ.put a (.obj .str []) := hafter
  have hslots : ((σ.put a (.obj .str [])).put a (.obj .str fields)).slots =
      Function.update σ.slots a (some (.obj .str fields)) := Function.update_idem ..
  exact ⟨extends_put hfree hslots fun _ _ => rfl, hbody, Function.update_self ..⟩

theorem HoldsText.readable {w : Word} {s : List Char} (h : HoldsText σ w s) :
    Readable σ.toWorld w ∧ nameOf σ.toWorld w = .text (Utf8.encode s) := by
  obtain ⟨a, id, hbody, rfl, hslot⟩ := h
  have htag := isTaggedStrKey_tag hbody
  have hbytes := strBytes_at hbody hslot
  refine ⟨⟨fun _ => ⟨_, hbytes⟩, fun hfalse => absurd htag (by rw [hfalse]; decide)⟩, ?_⟩
  unfold nameOf
  rw [if_pos htag, hbytes]
  rfl

/-- The table of entries of different keys is a map by their texts. -/
theorem HoldsEntries.represents {entries : List (List Char × Value)} :
    ∀ {fields : KeyTable}, HoldsEntries rt σ fields entries →
      names (nameOf σ.toWorld) fields = entries.map (fun e => .text (Utf8.encode e.1)) ∧
        ∀ e ∈ fields, Readable σ.toWorld e.2.1 ∧
          e.1 = codeOf rt.toRuntime (nameOf σ.toWorld e.2.1) := by
  induction entries with
  | nil =>
    intro fields h
    cases fields with
    | nil => exact ⟨rfl, fun _ he => absurd he List.not_mem_nil⟩
    | cons e fields => cases h
  | cons kv entries ih =>
    intro fields h
    cases fields with
    | nil => cases h
    | cons e fields =>
      obtain ⟨hcode, htext, -, hrest⟩ := h
      obtain ⟨hread, hname⟩ := htext.readable
      obtain ⟨hnames, hall⟩ := ih hrest
      refine ⟨?_, ?_⟩
      · rw [names_cons, hnames, hname]
        rfl
      · intro b hb
        rcases List.mem_cons.mp hb with rfl | hb
        · exact ⟨hread, by rw [hname]; exact hcode⟩
        · exact hall b hb

theorem HoldsEntries.append {before after : List (List Char × Value)} :
    ∀ {fields fields' : KeyTable}, HoldsEntries rt σ fields before →
      HoldsEntries rt σ fields' after → HoldsEntries rt σ (fields ++ fields') (before ++ after) := by
  induction before with
  | nil =>
    intro fields fields' h h'
    cases fields with
    | nil => exact h'
    | cons e fields => cases h
  | cons kv before ih =>
    intro fields fields' h h'
    cases fields with
    | nil => cases h
    | cons e fields => exact ⟨h.1, h.2.1, h.2.2.1, ih h.2.2.2 h'⟩

theorem encode_injective {a b : List Char} (h : Utf8.encode a = Utf8.encode b) : a = b := by
  have hback := congrArg Utf8.decodeLossy h
  rwa [Utf8.decodeLossy_encode, Utf8.decodeLossy_encode] at hback

/-- A key that the table does not have is put behind the others. -/
theorem mapInsert_holds {fields : KeyTable} {before : List (List Char × Value)} {key w : Word}
    {k : List Char} {v : Value} (h : HoldsEntries rt σ fields before)
    (hkeys : ((before ++ [(k, v)]).map Prod.fst).Nodup) (hkey : HoldsText σ key k)
    (hw : Holds rt σ w v) :
    ∃ fields', mapInsert rt.toRuntime σ.toWorld fields key w = .ok fields' ∧
      HoldsEntries rt σ fields' (before ++ [(k, v)]) := by
  obtain ⟨hread, hname⟩ := hkey.readable
  obtain ⟨hnames, hall⟩ := h.represents
  have hnodup : (before.map Prod.fst).Nodup ∧ k ∉ before.map Prod.fst := by
    rw [List.map_append] at hkeys
    obtain ⟨hbefore, -, hapart⟩ := List.nodup_append.mp hkeys
    exact ⟨hbefore, fun hk => hapart k hk k List.mem_cons_self rfl⟩
  have hnodupNames : (names (nameOf σ.toWorld) fields).Nodup := by
    rw [hnames, show (fun e : List Char × Value => Name.text (Utf8.encode e.1)) =
      (fun s => Name.text (Utf8.encode s)) ∘ Prod.fst from rfl, ← List.map_map]
    exact hnodup.1.map fun a b hab => encode_injective (Name.text.inj hab)
  have hnew : nameOf σ.toWorld key ∉ names (nameOf σ.toWorld) fields := by
    rw [hnames, hname]
    intro hmem
    obtain ⟨e, he, heq⟩ := List.mem_map.mp hmem
    exact hnodup.2 (encode_injective (Name.text.inj heq) ▸ List.mem_map_of_mem he)
  have hinsert := (named rt.toRuntime σ.toWorld).insert_new ⟨hall, hnodupNames⟩ hread hnew w
  have hlast : HoldsEntries rt σ [(codeOf rt.toRuntime (nameOf σ.toWorld key), key, w)] [(k, v)] :=
    ⟨congrArg (codeOf rt.toRuntime) hname, hkey, hw, trivial⟩
  refine ⟨_, ?_, h.append hlast⟩
  unfold mapInsert
  rw [hinsert]
  rfl

mutual

/-- What is put on the heap as an `Any` is held by the word. -/
theorem convert_holds : ∀ {v : Value} (σ : Heap), v.Plain →
    Done (fun out : Heap × Word => Extends σ out.1 ∧ Holds rt out.1 out.2 v) (convert rt true σ v)
  | .null, σ, _ => .ok ⟨Extends.refl σ, rfl⟩
  | .bool _, σ, _ => .ok ⟨Extends.refl σ, rfl⟩
  | .number (.posInt n), σ, hp => by
    have hi : (Number.posInt n).asI64 = some (BitVec.ofNat 64 n) := if_pos hp
    unfold convert
    rw [if_pos rfl, hi]
    exact (oliveBoxInt_done σ _).imp fun _ h => ⟨h.1, _, hi, h.2⟩
  | .number (.negInt z), σ, _ => (oliveBoxInt_done σ _).imp fun _ h => ⟨h.1, _, rfl, h.2⟩
  | .number (.float bits), σ, _ => heapBox_done σ kindFloat bits
  | .string _, σ, hp => strInternal_done σ hp
  | .array elems, σ, hp => by
    unfold convert
    refine (convertAll_holds σ hp).bind ?_
    rintro ⟨after, words⟩ ⟨hext, hall⟩
    refine (listFromVec_done after words).imp ?_
    rintro out ⟨hext', hbody, hslot, hwords⟩
    exact ⟨hext.trans hext', hbody, hslot, words, hwords, hall.kept hext'⟩
  | .object entries, σ, hp => by
    unfold convert
    refine (convertEntries_holds σ (show HoldsEntries rt σ [] [] from trivial) hp.1.keys_nodup
      hp.2).bind ?_
    rintro ⟨after, fields⟩ ⟨hext, hall⟩
    refine (newObjFromMap_done after fields).imp ?_
    rintro out ⟨hext', hbody, hslot⟩
    exact ⟨hext.trans hext', hbody, fields, hslot, hall.kept hext'⟩

theorem convertAll_holds : ∀ {values : List Value} (σ : Heap), PlainAll values →
    Done (fun out : Heap × List Word => Extends σ out.1 ∧ HoldsAll rt out.1 out.2 values)
      (convertAll rt σ values)
  | [], σ, _ => .ok ⟨Extends.refl σ, trivial⟩
  | v :: values, σ, hp => by
    unfold convertAll
    refine (convert_holds σ hp.1).bind ?_
    rintro ⟨after, w⟩ ⟨hext, hw⟩
    refine (convertAll_holds after hp.2).map ?_
    rintro ⟨after', words⟩ ⟨hext', hall⟩
    exact ⟨hext.trans hext', hw.kept hext', hall⟩

theorem convertEntries_holds : ∀ {entries before : List (List Char × Value)} {fields : KeyTable}
    (σ : Heap), HoldsEntries rt σ fields before → ((before ++ entries).map Prod.fst).Nodup →
      PlainEntries entries →
      Done (fun out : Heap × KeyTable => Extends σ out.1 ∧
        HoldsEntries rt out.1 out.2 (before ++ entries)) (convertEntries rt σ fields entries)
  | [], before, fields, σ, h, _, _ => .ok ⟨Extends.refl σ, by rwa [List.append_nil]⟩
  | (k, v) :: entries, before, fields, σ, h, hkeys, hp => by
    unfold convertEntries
    refine (strInternal_done σ hp.1).bind ?_
    rintro ⟨first, key⟩ ⟨hext, hkey⟩
    refine (convert_holds first hp.2.1).bind ?_
    rintro ⟨second, w⟩ ⟨hext', hw⟩
    rw [List.append_cons] at hkeys ⊢
    have hfirst : ((before ++ [(k, v)]).map Prod.fst).Nodup := by
      rw [List.map_append] at hkeys
      exact (List.nodup_append.mp hkeys).1
    obtain ⟨fields', hinsert, hfields⟩ :=
      mapInsert_holds ((h.kept hext).kept hext') hfirst (hkey.kept hext') hw
    show Done _ ((mapInsert rt.toRuntime second.toWorld fields key w).bind fun fields =>
      convertEntries rt second fields entries)
    rw [hinsert]
    refine (convertEntries_holds second hfields hkeys hp.2.2).imp ?_
    rintro out ⟨hext'', hall⟩
    exact ⟨(hext.trans hext').trans hext'', hall⟩

end

end Encoding

section Statement

/-- The values that are put on the heap as a whole. -/
def Value.IsContainer : Value → Prop
  | .array _ => True
  | .object _ => True
  | _ => False

/-- The word is read back as the value, also on a heap on which other things were put since. -/
def ReadsBack (rt : JsonRuntime) (v : Value) (out : Heap × Word) : Prop :=
  ∀ σ', Extends out.1 σ' → ∀ depth, v.depth < depth → oliveToJson rt depth σ' out.2 = .ok v

variable (rt : JsonRuntime) (σ : Heap) {v : Value}

theorem jsonToOliveAny_readsBack (hp : v.Plain) :
    Done (fun out => Extends σ out.1 ∧ ReadsBack rt v out) (jsonToOliveAny rt σ v) := by
  refine (convert_holds σ hp).imp ?_
  rintro ⟨after, w⟩ ⟨hext, hw⟩
  refine ⟨hext, fun σ' hext' depth hdepth => ?_⟩
  obtain ⟨inner, rfl⟩ : ∃ inner, depth = inner + 1 := ⟨depth - 1, by omega⟩
  exact oliveToJson_holds hp (hw.kept hext') (by omega)

def smallRuntime : JsonRuntime where
  toRuntime := smallHeap
  toF64 _ := 0
  toI64 _ := 0
  iterate fields := fields
  iterate_perm fields := List.Perm.refl fields

def emptyHeap : Heap where
  toWorld := emptyWorld
  lists _ := none

/-- An object with an empty key, of a list of a null, a truth value, an integer and an empty text. -/
def sample : Value :=
  .object [([], .array [.null, .bool true, .number (.negInt (-3)), .string []])]

end Statement

end Json

end Dicts

end Olive
