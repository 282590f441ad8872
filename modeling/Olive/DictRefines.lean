import Olive.DictMap

/-! Every operation on dictionaries answers as the finite maps do, in every state that clean steps reach. -/

namespace Olive

namespace Dicts

open HashTable HashTyped

section Keys

variable {rt : Runtime} {σ : World} {d k : Word} {kind : KeyKind} {fields : KeyTable}

theorem KeyOk.entryKey (h : Inv rt none σ) (hk : KeyOk σ none d .str k) : EntryKey σ .str k := by
  obtain ⟨a, bytes, id, rfl, hslot, hzero, -⟩ := hk
  exact ⟨a, bytes, id, some d, h.body a _ hslot, rfl, hslot, hzero⟩

/-- What a new slot leaves. -/
structure Kept (rt : Runtime) (σ σ' : World) : Prop where
  inv : Inv rt none σ'
  map : mapAt σ' = mapAt σ
  keeps : ∀ a slot, σ.slots a = some slot → σ'.slots a = some slot
  literals : σ'.literals = σ.literals

theorem Kept.self (h : Inv rt none σ) : Kept rt σ σ :=
  ⟨h, rfl, fun _ _ ha => ha, rfl⟩

theorem Kept.trans {σ₁ σ₂ : World} (h : Kept rt σ σ₁) (h' : Kept rt σ₁ σ₂) : Kept rt σ σ₂ where
  inv := h'.inv
  map := h'.map.trans h.map
  keeps a slot ha := h'.keeps a slot (h.keeps a slot ha)
  literals := h'.literals.trans h.literals

/-- A string of the program's own. -/
theorem strAlloc_own (h : Inv rt none σ) (bytes : List UInt8) :
    strAlloc rt σ none bytes = .error .outOfMemory ∨
      ∃ σ' a id, strAlloc rt σ none bytes = .ok (σ', a ||| 3) ∧ Kept rt σ σ' ∧ IsBody a ∧
        σ'.slots a = some (.str bytes id none) := by
  unfold strAlloc
  cases hnext : rt.next σ with
  | none => exact .inl rfl
  | some a =>
    right
    have hfresh := rt.next_fresh σ a hnext
    have hinv : Inv rt (if (none : Option Word) = none then none else some a) (born σ a bytes none) :=
      h.born hfresh
    rw [if_pos rfl] at hinv
    refine ⟨born σ a bytes none, a, σ.births, rfl, ⟨hinv, mapAt_born h hfresh, ?_, rfl⟩, hfresh.2, ?_⟩
    · intro x slot hx
      show Function.update _ _ _ _ = _
      rw [Function.update_of_ne, hx]
      rintro rfl
      rw [hfresh.1] at hx
      cases hx
    · exact Function.update_self ..

/-- A key that is listed is copied, with its content. -/
theorem copyAny_str (h : Inv rt none σ) (hk : EntryKey σ .str k)
    (hvalid : ∀ bytes, σ.strBytes k = some bytes → Utf8.Valid bytes) :
    copyAny rt σ k = .error .outOfMemory ∨
      ∃ σ' w, copyAny rt σ k = .ok (σ', w) ∧ Kept rt σ σ' ∧ EntryKey σ' .str w ∧
        nameOf σ' w = nameOf σ k := by
  obtain ⟨a, bytes, id, owner, hbody, rfl, hslot, hzero⟩ := hk
  have hbytes := strBytes_at hbody hslot
  obtain ⟨text, htext⟩ := hvalid bytes hbytes
  have hone : (a ||| 3) &&& 1 = 1 := by
    rw [BitVec.and_or_distrib_right, body_and_low hbody.2 (by decide), word_zero_or]
    decide
  have hne : a ||| 3 ≠ 0 := by
    intro hzero
    rw [hzero] at hone
    exact absurd hone (by decide)
  have hactive : isActiveObject σ a = true := by
    unfold isActiveObject
    rw [(live_slots_iff h).mpr hslot]
    rfl
  have hcontent : Utf8.encode ((Utf8.decodeLossy bytes).filter (· ≠ '\x00')) = bytes := by
    rw [htext, Utf8.decodeLossy_encode, ← Utf8.filter_encode, ← htext, List.filter_eq_self]
    intro b hb
    exact decide_eq_true (hzero b hb)
  have hcopy : copyAny rt σ (a ||| 3) = strAlloc rt σ none bytes := by
    unfold copyAny copyStr
    rw [if_neg hne, if_pos (by rw [hone]; decide), if_neg (by rw [hone]; decide), strBody_tag hbody.2,
      if_pos (by rw [strIsHeap_tag hbody.2, hactive]; rfl)]
    unfold oliveCopy
    rw [hbytes]
    show strAlloc rt σ none _ = _
    rw [hcontent]
  rw [hcopy]
  rcases strAlloc_own h bytes with hfull | ⟨σ', b, id', halloc, hkept, hb, hslot'⟩
  · exact .inl hfull
  · refine .inr ⟨σ', b ||| 3, halloc, hkept, ⟨b, bytes, id', none, hb, rfl, hslot', hzero⟩, ?_⟩
    unfold nameOf
    rw [if_pos (isTaggedStrKey_tag hb), if_pos (isTaggedStrKey_tag hbody), strBytes_at hb hslot', hbytes]

/-- The name of a string stays where its slot stays. -/
theorem EntryKey.name_kept {σ' : World} (hk : EntryKey σ .str k)
    (hkeeps : ∀ a slot, σ.slots a = some slot → σ'.slots a = some slot) :
    EntryKey σ' .str k ∧ σ'.strBytes k = σ.strBytes k ∧ nameOf σ' k = nameOf σ k := by
  obtain ⟨a, bytes, id, owner, hbody, rfl, hslot, hzero⟩ := hk
  have hslot' := hkeeps a _ hslot
  have hsame : σ'.strBytes (a ||| 3) = σ.strBytes (a ||| 3) := by
    rw [strBytes_at hbody hslot, strBytes_at hbody hslot']
  exact ⟨⟨a, bytes, id, owner, hbody, rfl, hslot', hzero⟩, hsame, nameOf_congr fun _ => hsame⟩

theorem copyAll_str {ks : List Word} (h : Inv rt none σ) (hks : ∀ k ∈ ks, EntryKey σ .str k)
    (hvalid : ∀ k ∈ ks, ∀ bytes, σ.strBytes k = some bytes → Utf8.Valid bytes) :
    copyAll rt ks σ = .error .outOfMemory ∨
      ∃ σ' ws, copyAll rt ks σ = .ok (σ', ws) ∧ Kept rt σ σ' ∧
        ws.map (nameOf σ') = ks.map (nameOf σ) := by
  induction ks generalizing σ with
  | nil => exact .inr ⟨σ, [], rfl, Kept.self h, rfl⟩
  | cons k rest ih =>
    unfold copyAll
    rcases copyAny_str h (hks k List.mem_cons_self) (hvalid k List.mem_cons_self) with
      hfull | ⟨σ₁, w, hcopy, hkept, hw, hname⟩
    · left
      rw [hfull]
      rfl
    · have hrest := fun k' (hk' : k' ∈ rest) =>
        (hks k' (List.mem_cons_of_mem _ hk')).name_kept hkept.keeps
      have hvalid' : ∀ k' ∈ rest, ∀ bytes, σ₁.strBytes k' = some bytes → Utf8.Valid bytes := by
        intro k' hk' bytes hbytes
        rw [(hrest k' hk').2.1] at hbytes
        exact hvalid k' (List.mem_cons_of_mem _ hk') bytes hbytes
      rw [hcopy]
      show ((copyAll rt rest σ₁).map _ : Outcome (World × List Word)) = _ ∨
        ∃ σ' ws, ((copyAll rt rest σ₁).map _ : Outcome (World × List Word)) = .ok (σ', ws) ∧ _
      rcases ih hkept.inv (fun k' hk' => (hrest k' hk').1) hvalid' with hfull | ⟨σ', ws, hws, hkept', hnames⟩
      · left
        rw [hfull]
        rfl
      · right
        refine ⟨σ', w :: ws, by rw [hws]; rfl, hkept.trans hkept', ?_⟩
        rw [List.map_cons, List.map_cons, hnames, (hw.name_kept hkept'.keeps).2.2, hname]
        congr 1
        exact List.map_congr_left fun k' hk' => (hrest k' hk').2.2

theorem and_twoPow_of_ne {i : Nat} (h : k &&& BitVec.twoPow 64 i ≠ 0) :
    k &&& BitVec.twoPow 64 i = BitVec.twoPow 64 i := by
  rw [BitVec.and_twoPow] at h ⊢
  split_ifs at h ⊢
  · rfl
  · exact absurd rfl h

/-- An integer that is listed is not taken for a pointer. -/
theorem copyAny_int (h : Inv rt none σ) (hk : PlainInt σ k) : copyAny rt σ k = .ok (σ, k) := by
  have hactive : isActiveObject σ k = false := by
    unfold isActiveObject
    rw [hk.2]
    rfl
  have hstr : copyStr rt σ k = .ok (σ, k) := by
    unfold copyStr
    split_ifs with hodd hheap
    · rfl
    · -- a live slot behind an odd word would make it a tagged string
      exfalso
      obtain ⟨hheap, hlive⟩ := Bool.and_eq_true_iff.mp hheap
      obtain ⟨slot, hslot⟩ := Option.isSome_iff_exists.mp hlive
      have hbody := h.body _ slot ((live_slots_iff h).mp hslot)
      have hlow : k &&& 3 = 3 := by
        have hone : k &&& 1 = 1 := and_twoPow_of_ne (i := 0) hodd
        have htwo : k &&& 2 = 2 := and_twoPow_of_ne (i := 1) (bne_iff_ne.mp hheap)
        rw [show (3 : Word) = 1 ||| 2 from by decide, BitVec.and_or_distrib_left, hone, htwo]
      have hsplit : strBody k ||| 3 = k := by
        unfold strBody
        calc k &&& ~~~3 ||| 3 = k &&& ~~~3 ||| k &&& 3 := by rw [hlow]
          _ = k &&& (~~~3 ||| 3) := BitVec.and_or_distrib_left.symm
          _ = k := by rw [show ~~~(3 : Word) ||| 3 = BitVec.allOnes 64 from by decide, BitVec.and_allOnes]
      have htag := isTaggedStrKey_tag hbody
      rw [hsplit, hk.1] at htag
      cases htag
    · rfl
  unfold copyAny
  split_ifs with hzero hodd hlow hlive
  · rfl
  · exact hstr
  · rfl
  · rw [hactive] at hlive
    cases hlive
  · rfl

theorem copyAll_int {ks : List Word} (h : Inv rt none σ) (hks : ∀ k ∈ ks, PlainInt σ k) :
    copyAll rt ks σ = .ok (σ, ks) := by
  induction ks with
  | nil => rfl
  | cons k rest ih =>
    unfold copyAll
    rw [copyAny_int h (hks k List.mem_cons_self)]
    show ((copyAll rt rest σ).map _ : Outcome (World × List Word)) = _
    rw [ih fun k' hk' => hks k' (List.mem_cons_of_mem _ hk')]
    rfl

end Keys

section Steps

variable {rt : Runtime} {depth : Nat} {σ σ' : World} {op : Op} {d k : Word} {kind : KeyKind}
  {fields : KeyTable}

/-- What an operation should do from here: the memory is full, or the answer and the maps are right and the
invariant is kept. -/
def Good (rt : Runtime) (depth : Nat) (σ : World) (op : Op) : Prop :=
  step rt depth σ op = .error .outOfMemory ∨
    ∃ σ' answer, step rt depth σ op = .ok (σ', answer) ∧ Inv rt none σ' ∧ Right σ op σ' answer ∧
      Keeps σ op σ'

/-- The dictionary of an operation. -/
theorem dict_of (h : Inv rt none σ) (fits : Fits σ op) (hop : op.dict = some d) :
    ∃ kind fields, σ.slots d = some (.obj kind fields) ∧ σ.live d = some (.obj kind fields) := by
  obtain ⟨kind, fields, hlive, -⟩ := fits.1 d hop
  exact ⟨kind, fields, (live_slots_iff h).mp hlive, hlive⟩

/-- The key of an operation, and its dictionary. -/
theorem ready_step (h : Inv rt none σ) (fits : Fits σ op) (clean : Clean σ op) (hop : op.dict = some d)
    (hkey : op.key = some k) : ∃ kind fields, Ready rt σ d kind fields k := by
  obtain ⟨kind, fields, hlive, hstr⟩ := fits.1 d hop
  have hd := (live_slots_iff h).mp hlive
  exact ⟨kind, fields, ready_of h hd (hstr k hkey) ((clean d kind fields hop hlive).1 k hkey)⟩

theorem keeps_self : Keeps σ op σ :=
  fun _ _ ha _ _ _ => ha

theorem SetDone.keeps_op {m : Map} (h : SetDone rt σ d kind m σ') (hop : op.dict = some d) :
    Keeps σ op σ' :=
  fun a slot ha hdict _ _ => h.keeps a slot (hdict d hop).1 ha

theorem TakeDone.keeps_op {m : Option Map} (h : TakeDone rt σ d m σ') (hop : op.dict = some d) :
    Keeps σ op σ' :=
  fun a slot ha hdict _ _ => h.keeps a slot (hdict d hop).1 (hdict d hop).2 ha

theorem oliveObjGet_live (h : Inv rt none σ) (hr : Ready rt σ d kind fields k) :
    oliveObjGet rt σ d k = .ok (σ, ((asMap (nameOf σ) fields).lookup (nameOf σ k)).getD 0) := by
  obtain ⟨hactive, hpy, -⟩ := active_of h hr.live
  unfold oliveObjGet
  rw [if_neg (not_not.mpr hactive), if_neg (by rw [hpy]; decide), hr.find]
  rfl

theorem oliveObjGetChecked_live (h : Inv rt none σ) (hr : Ready rt σ d kind fields k) :
    oliveObjGetChecked rt σ d k = .ok (σ, (asMap (nameOf σ) fields).lookup (nameOf σ k)) := by
  obtain ⟨hactive, hpy, -⟩ := active_of h hr.live
  unfold oliveObjGetChecked
  rw [if_neg (not_not.mpr hactive), if_neg (by rw [hpy]; decide), hr.find]
  rfl

theorem oliveObjGetDefault_live (h : Inv rt none σ) (hr : Ready rt σ d kind fields k) (default : Word) :
    oliveObjGetDefault rt σ d k default =
      .ok (σ, ((asMap (nameOf σ) fields).lookup (nameOf σ k)).getD default) := by
  obtain ⟨hactive, hpy, -⟩ := active_of h hr.live
  unfold oliveObjGetDefault getDefaultImpl
  rw [if_neg (not_not.mpr hactive), if_neg (by rw [hpy]; decide), hr.find]
  cases (asMap (nameOf σ) fields).lookup (nameOf σ k) with
  | none => rfl
  | some v => rfl

/-- A read of the dictionary, right where it answers as the map. -/
theorem good_read {answer : Answer} (h : Inv rt none σ) (hstep : step rt depth σ op = .ok (σ, answer))
    (hright : Right σ op σ answer) : Good rt depth σ op :=
  .inr ⟨σ, answer, hstep, h, hright, keeps_self⟩

/-- The maps after a read. -/
theorem Ready.same (hr : Ready rt σ d kind fields k) :
    mapAt σ = Function.update (mapAt σ) d (some (asMap (nameOf σ) fields)) :=
  (mapAt_update_self (mapAt_of hr.live)).symm

theorem step_get (h : Inv rt none σ) (hr : Ready rt σ d kind fields k) : Good rt depth σ (.get d k) := by
  refine good_read h ?_ ⟨_, mapAt_of hr.live, rfl, hr.same⟩
  show (oliveObjGet rt σ d k).map _ = _
  rw [oliveObjGet_live h hr]
  rfl

theorem step_getChecked (h : Inv rt none σ) (hr : Ready rt σ d kind fields k) :
    Good rt depth σ (.getChecked d k) := by
  refine good_read h ?_ ⟨_, mapAt_of hr.live, rfl, hr.same⟩
  show (oliveObjGetChecked rt σ d k).map _ = _
  rw [oliveObjGetChecked_live h hr]
  rfl

theorem step_getDefault (h : Inv rt none σ) (hr : Ready rt σ d kind fields k) (default : Word) :
    Good rt depth σ (.getDefault d k default) := by
  refine good_read h ?_ ⟨_, mapAt_of hr.live, rfl, hr.same⟩
  show (oliveObjGetDefault rt σ d k default).map _ = _
  rw [oliveObjGetDefault_live h hr]
  rfl

theorem step_contains (h : Inv rt none σ) (hr : Ready rt σ d kind fields k) :
    Good rt depth σ (.contains d k) := by
  refine good_read h ?_ ⟨_, mapAt_of hr.live, rfl, hr.same⟩
  show (oliveInObj rt σ k d).map _ = _
  unfold oliveInObj
  rw [if_neg (active_of h hr.live).2.2, hr.find]
  rfl

theorem step_len (h : Inv rt none σ) (hd : σ.slots d = some (.obj kind fields)) :
    Good rt depth σ (.len d) := by
  refine good_read h ?_ ⟨_, mapAt_of hd, rfl, (mapAt_update_self (mapAt_of hd)).symm⟩
  show (oliveObjLen σ d).map _ = .ok (σ, Answer.count (asMap (nameOf σ) fields).keys.card)
  rw [card_keys_asMap (h.table d kind fields hd).nodup]
  unfold oliveObjLen World.fields
  rw [if_neg (active_of h hd).2.2, hd]
  rfl

theorem step_set (h : Inv rt none σ) (hr : Ready rt σ d kind fields k)
    (hzero : kind = .str → ∀ bytes, σ.strBytes k = some bytes → ∀ b ∈ bytes, b ≠ 0) (v : Word) :
    Good rt depth σ (.set d k v) := by
  rcases oliveObjSet_done h hr hzero v with hfull | ⟨σ', hset, hdone⟩
  · left
    show (oliveObjSet rt σ d k v).map _ = _
    rw [hfull]
    rfl
  · refine .inr ⟨σ', _, ?_, hdone.inv, ⟨_, mapAt_of hr.live, rfl, hdone.map⟩, hdone.keeps_op rfl⟩
    show (oliveObjSet rt σ d k v).map _ = _
    rw [hset]
    rfl

theorem step_setdefault (h : Inv rt none σ) (hr : Ready rt σ d kind fields k)
    (hzero : kind = .str → ∀ bytes, σ.strBytes k = some bytes → ∀ b ∈ bytes, b ≠ 0) (default : Word) :
    Good rt depth σ (.setdefault d k default) := by
  have hpath : step rt depth σ (.setdefault d k default) =
      ((oliveObjSetdefault rt σ d k default).map fun r => (r.1, .word r.2) :
        Outcome (World × Answer)) := rfl
  unfold oliveObjSetdefault at hpath
  rw [if_neg (active_of h hr.live).2.2, hr.find] at hpath
  cases hfound : (asMap (nameOf σ) fields).lookup (nameOf σ k) with
  | some v =>
    rw [hfound] at hpath
    refine good_read h hpath ⟨_, mapAt_of hr.live, ?_, ?_⟩
    · simp only [expected, hfound]
    · simp only [expected, hfound]
      exact hr.same
  | none =>
    rw [hfound] at hpath
    rcases oliveObjSet_done h hr hzero default with hfull | ⟨σ', hset, hdone⟩
    · left
      rw [hpath]
      show ((oliveObjSet rt σ d k default).map _).map _ = _
      rw [hfull]
      rfl
    · refine .inr ⟨σ', .word default, ?_, hdone.inv, ⟨_, mapAt_of hr.live, ?_, ?_⟩, hdone.keeps_op rfl⟩
      · rw [hpath]
        show ((oliveObjSet rt σ d k default).map _).map _ = _
        rw [hset]
        rfl
      · simp only [expected, hfound]
      · simp only [expected, hfound]
        exact hdone.map

theorem step_remove (h : Inv rt none σ) (hr : Ready rt σ d kind fields k) :
    Good rt depth σ (.remove d k) := by
  obtain ⟨σ', htake, hdone⟩ := takeEntry_done h hr
  refine .inr ⟨σ', _, ?_, hdone.inv, ⟨_, mapAt_of hr.live, rfl, hdone.map⟩, hdone.keeps_op rfl⟩
  show (oliveObjRemove rt σ d k).map _ = _
  unfold oliveObjRemove
  rw [if_neg (not_not.mpr (active_of h hr.live).1), htake]
  rfl

theorem step_popChecked (h : Inv rt none σ) (hr : Ready rt σ d kind fields k) :
    Good rt depth σ (.popChecked d k) := by
  obtain ⟨σ', htake, hdone⟩ := takeEntry_done h hr
  refine .inr ⟨σ', _, ?_, hdone.inv, ⟨_, mapAt_of hr.live, rfl, hdone.map⟩, hdone.keeps_op rfl⟩
  show (oliveObjPopChecked rt σ d k).map _ = _
  unfold oliveObjPopChecked
  rw [if_neg (not_not.mpr (active_of h hr.live).1), htake]
  rfl

theorem step_popDefault (h : Inv rt none σ) (hr : Ready rt σ d kind fields k) (default : Word) :
    Good rt depth σ (.popDefault d k default) := by
  obtain ⟨σ', htake, hdone⟩ := takeEntry_done h hr
  refine .inr ⟨σ', _, ?_, hdone.inv, ⟨_, mapAt_of hr.live, rfl, hdone.map⟩, hdone.keeps_op rfl⟩
  show (oliveObjPopDefault rt σ d k default).map _ = _
  unfold oliveObjPopDefault
  rw [if_neg (not_not.mpr (active_of h hr.live).1), htake]
  rfl

theorem step_clear (h : Inv rt none σ) (hd : σ.slots d = some (.obj kind fields))
    (hvalues : ∀ e ∈ fields, σ.live e.2.2 = none) : Good rt depth σ (.clear d) := by
  obtain ⟨σ', hclear, hdone⟩ := oliveObjClear_done h hd hvalues depth
  refine .inr ⟨σ', _, ?_, hdone.inv, ⟨_, mapAt_of hd, rfl, hdone.map⟩, hdone.keeps_op rfl⟩
  show (oliveObjClear rt σ depth d).map _ = _
  rw [hclear]
  rfl

theorem step_free (h : Inv rt none σ) (hd : σ.slots d = some (.obj kind fields))
    (hvalues : ∀ e ∈ fields, σ.live e.2.2 = none) : Good rt depth σ (.free d) := by
  obtain ⟨σ', hfree, hdone⟩ := oliveFreeObj_done h hd hvalues depth
  refine .inr ⟨σ', _, ?_, hdone.inv, ⟨_, mapAt_of hd, rfl, hdone.map⟩, hdone.keeps_op rfl⟩
  show (oliveFreeObj rt (depth + 1) σ d).map _ = _
  rw [hfree]
  rfl

/-- `update`, also of a dictionary with itself. -/
theorem step_update {other : Word} {fields' : KeyTable} (h : Inv rt none σ)
    (hd : σ.slots d = some (.obj kind fields)) (hother : σ.slots other = some (.obj kind fields'))
    (hplain : kind = .int → PlainKeys σ fields) (hplain' : kind = .int → PlainKeys σ fields') :
    Good rt depth σ (.update d other) := by
  have hentries : ∀ e ∈ fields'.map (·.2), EntryKey σ kind e.1 := by
    intro e he
    obtain ⟨entry, hentry, rfl⟩ := List.mem_map.mp he
    cases kind with
    | str => exact ((h.table other .str fields' hother).keys entry hentry).entryKey h
    | int => exact hplain' rfl entry hentry
  have hpath : step rt depth σ (.update d other) =
      (((setAll rt d (fields'.map (·.2)) σ).map fun σ => (σ, d)).map fun r => (r.1, .word r.2) :
        Outcome (World × Answer)) := by
    show (oliveObjUpdate rt σ d other).map _ = _
    unfold oliveObjUpdate World.fields
    rw [if_neg, hother]
    · rfl
    · rw [not_or, not_not]
      exact ⟨(active_of h hd).2.2, (active_of h hother).1⟩
  rcases setAll_done h hd hplain hentries with hfull | ⟨σ', hset, hdone⟩
  · left
    rw [hpath, hfull]
    rfl
  · rw [insertAll_union (h.table other kind fields' hother).nodup] at hdone
    refine .inr ⟨σ', .word d, ?_, hdone.inv, ⟨_, mapAt_of hd, rfl, ?_⟩, hdone.keeps_op rfl⟩
    · rw [hpath, hset]
      rfl
    · show mapAt σ' = Function.update (mapAt σ) d (some ((mapAt σ other).getD ∅ ∪ _))
      rw [hdone.map, mapAt_of hother]
      rfl

/-- The keys that are listed: those of the map, each once. -/
theorem step_keys (h : Inv rt none σ) (hd : σ.slots d = some (.obj kind fields))
    (hplain : kind = .int → PlainKeys σ fields)
    (hvalid : kind = .str → ∀ e ∈ fields, ∀ bytes, σ.strBytes e.2.1 = some bytes → Utf8.Valid bytes) :
    Good rt depth σ (.keys d) := by
  have htable := h.table d kind fields hd
  have hpath : step rt depth σ (.keys d) =
      ((copyAll rt (keysOf fields) σ).map fun r => (r.1, .words r.2) : Outcome (World × Answer)) := by
    show (oliveObjKeys rt σ d).map _ = _
    unfold oliveObjKeys World.fields
    rw [if_neg (active_of h hd).2.2, hd]
    rfl
  have hnames : (keysOf fields).map (nameOf σ) = names (nameOf σ) fields := List.map_map
  have hcopies : copyAll rt (keysOf fields) σ = .error .outOfMemory ∨
      ∃ σ' ws, copyAll rt (keysOf fields) σ = .ok (σ', ws) ∧ Kept rt σ σ' ∧
        ws.map (nameOf σ') = names (nameOf σ) fields := by
    rw [← hnames]
    cases kind with
    | int =>
      refine .inr ⟨σ, _, copyAll_int h ?_, Kept.self h, rfl⟩
      intro k hk
      obtain ⟨e, he, rfl⟩ := List.mem_map.mp hk
      exact hplain rfl e he
    | str =>
      apply copyAll_str h
      · intro k hk
        obtain ⟨e, he, rfl⟩ := List.mem_map.mp hk
        exact (htable.keys e he).entryKey h
      · intro k hk
        obtain ⟨e, he, rfl⟩ := List.mem_map.mp hk
        exact hvalid rfl e he
  rcases hcopies with hfull | ⟨σ', ws, hws, hkept, hlist⟩
  · left
    rw [hpath, hfull]
    rfl
  · refine .inr ⟨σ', .words ws, ?_, hkept.inv, ?_, fun a slot ha _ _ _ => hkept.keeps a slot ha⟩
    · rw [hpath, hws]
      rfl
    · refine ⟨_, ws, mapAt_of hd, rfl, ?_, ?_, hkept.map⟩
      · rw [hlist]
        exact htable.nodup
      · rw [hlist]
        ext n
        rw [List.mem_toFinset, mem_keys_asMap]

/-- A new slot that is no string and owns nothing. -/
theorem Inv.fresh {a : Word} {slot : Slot} (h : Inv rt none σ) (hnext : rt.next σ = some a)
    (hslot : ¬ IsStr (some slot)) (htable : ∀ kind fields, slot = .obj kind fields → fields = []) :
    Inv rt none (σ.put a slot) ∧ mapAt σ a = none ∧ mapAt (σ.put a slot) =
      Function.update (mapAt σ) a (slot.map σ) ∧ ∀ x s, σ.slots x = some s → (σ.put a slot).slots x = some s := by
  obtain ⟨hnone, hbody⟩ := rt.next_fresh σ a hnext
  have hold : ¬ IsStr (σ.slots a) := by
    rw [hnone]
    rintro ⟨bytes, id, owner, he⟩
    cases he
  have hmap : mapAt σ a = none := by
    unfold mapAt
    rw [hnone]
    rfl
  refine ⟨?_, hmap, mapAt_write hold hslot, ?_⟩
  · refine h.write (fun s _ => hbody) hold hslot (fun b he => nomatch he) (fun b he => nomatch he) ?_ ?_
    · intro kind fields he
      rw [htable kind fields (Option.some.inj he)]
      exact ⟨fun e he => (nomatch he), List.nodup_nil, fun e he => nomatch he⟩
    · intro b hb _
      obtain ⟨fields, hd, -⟩ := h.owned a b hb fun he => nomatch he
      rw [hnone] at hd
      cases hd
  · intro x s hx
    show Function.update _ _ _ _ = _
    rw [Function.update_of_ne, hx]
    rintro rfl
    rw [hnone] at hx
    cases hx

theorem step_new (h : Inv rt none σ) (kind : KeyKind) : Good rt depth σ (.new kind) := by
  have hpath : step rt depth σ (.new kind) = ((allocSlot rt σ (.obj kind [])).map
      fun r => (r.1, .word r.2) : Outcome (World × Answer)) := rfl
  unfold allocSlot at hpath
  cases hnext : rt.next σ with
  | none =>
    rw [hnext] at hpath
    exact .inl hpath
  | some a =>
    rw [hnext] at hpath
    have hobj : ¬ IsStr (some (Slot.obj kind [])) := by
      rintro ⟨_, _, _, he⟩
      cases he
    obtain ⟨hinv, hnone, hmap, hkeeps⟩ := h.fresh hnext hobj fun _ _ he => by
      cases he
      rfl
    refine .inr ⟨_, _, hpath, hinv, ⟨a, rfl, hnone, ?_⟩, fun x s hx _ _ _ => hkeeps x s hx⟩
    rw [hmap]
    exact congrArg (fun m => Function.update (mapAt σ) a (some m)) asMap_nil

/-- A new slot of another kind leaves the maps. -/
theorem good_alloc {slot : Slot} (h : Inv rt none σ) (hslot : ¬ IsStr (some slot)) (hmap : slot.map σ = none)
    (hpath : step rt depth σ op = ((allocSlot rt σ slot).map fun (σ, w) => (σ, .word w) :
      Outcome (World × Answer)))
    (hright : ∀ σ' answer, mapAt σ' = mapAt σ → Right σ op σ' answer) : Good rt depth σ op := by
  unfold allocSlot at hpath
  cases hnext : rt.next σ with
  | none =>
    rw [hnext] at hpath
    exact .inl hpath
  | some a =>
    rw [hnext] at hpath
    obtain ⟨hinv, hnone, hafter, hkeeps⟩ := h.fresh hnext hslot fun kind fields he => by
      rw [he] at hmap
      cases hmap
    refine .inr ⟨_, _, hpath, hinv, hright _ _ ?_, fun x s hx _ _ _ => hkeeps x s hx⟩
    rw [hafter, hmap, mapAt_update_self hnone]

theorem step_newString (h : Inv rt none σ) (bytes : List UInt8) : Good rt depth σ (.newString bytes) := by
  have hpath : step rt depth σ (.newString bytes) = ((strAlloc rt σ none bytes).map
      fun (σ, w) => (σ, .word w) : Outcome (World × Answer)) := rfl
  rcases strAlloc_own h bytes with hfull | ⟨σ', a, id, halloc, hkept, -, -⟩
  · left
    rw [hpath, hfull]
    rfl
  · refine .inr ⟨σ', .word (a ||| 3), ?_, hkept.inv, hkept.map, fun x s hx _ _ _ => hkept.keeps x s hx⟩
    rw [hpath, halloc]
    rfl

theorem step_dropString {w : Word} (h : Inv rt none σ) (fits : Fits σ (.dropString w)) :
    Good rt depth σ (.dropString w) := by
  obtain ⟨a, bytes, id, rfl, hslot⟩ := fits.2
  have hbody := h.body a _ hslot
  have hfree : (none : Option Word) = none ∧ (none : Option Word) = none ∨ (none : Option Word) = some a :=
    .inl ⟨rfl, rfl⟩
  refine .inr ⟨gone σ a id, .done, ?_, h.gone hslot hfree, mapAt_gone h hslot hfree, ?_⟩
  · show (strFree σ (a ||| 3)).map _ = _
    rw [strFree_at hbody hslot]
    rfl
  · intro x s hx _ hw _
    have hne : x ≠ a := by
      have := hw _ rfl
      rwa [strBody_tag hbody.2] at this
    show Function.update _ _ _ _ = _
    rw [Function.update_of_ne hne, hx]

theorem step_dropSlot {a : Word} (h : Inv rt none σ) (fits : Fits σ (.dropSlot a)) :
    Good rt depth σ (.dropSlot a) := by
  have hold : ¬ IsStr (σ.slots a) ∧ mapAt σ a = none ∧ ∀ kind fields, σ.slots a ≠ some (.obj kind fields) := by
    unfold mapAt
    obtain ⟨kind, bits, ha | ha⟩ := fits.2
    · rw [ha]
      exact ⟨fun ⟨_, _, _, he⟩ => (nomatch he), rfl, fun _ _ he => nomatch he⟩
    · rw [ha]
      exact ⟨fun ⟨_, _, _, he⟩ => (nomatch he), rfl, fun _ _ he => nomatch he⟩
  obtain ⟨hstr, hnone, hobj⟩ := hold
  have hnew : ¬ IsStr none := fun ⟨_, _, _, he⟩ => nomatch he
  refine .inr ⟨σ.release a, .done, rfl, ?_, ?_, ?_⟩
  · refine h.write (fun s he => nomatch he) hstr hnew (fun b he => nomatch he) (fun b he => nomatch he)
      (fun kind fields he => nomatch he) ?_
    intro b hb _
    obtain ⟨fields, hd, -⟩ := h.owned a b hb fun he => nomatch he
    exact absurd hd (hobj _ _)
  · exact (mapAt_write hstr hnew).trans (mapAt_update_self hnone)
  · intro x s hx _ _ hop
    have hne : x ≠ a := by
      rintro rfl
      exact hop rfl
    show Function.update _ _ _ _ = _
    rw [Function.update_of_ne hne, hx]

theorem step_good (depth : Nat) (h : Inv rt none σ) (fits : Fits σ op) (clean : Clean σ op) : Good rt depth σ op := by
  cases op with
  | new kind => exact step_new h kind
  | set d k v =>
    obtain ⟨kind, fields, hr⟩ := ready_step h fits clean rfl rfl
    exact step_set h hr (clean d kind fields rfl ((live_slots_iff h).mpr hr.live)).2 v
  | get d k =>
    obtain ⟨kind, fields, hr⟩ := ready_step h fits clean rfl rfl
    exact step_get h hr
  | getChecked d k =>
    obtain ⟨kind, fields, hr⟩ := ready_step h fits clean rfl rfl
    exact step_getChecked h hr
  | getDefault d k default =>
    obtain ⟨kind, fields, hr⟩ := ready_step h fits clean rfl rfl
    exact step_getDefault h hr default
  | remove d k =>
    obtain ⟨kind, fields, hr⟩ := ready_step h fits clean rfl rfl
    exact step_remove h hr
  | popChecked d k =>
    obtain ⟨kind, fields, hr⟩ := ready_step h fits clean rfl rfl
    exact step_popChecked h hr
  | popDefault d k default =>
    obtain ⟨kind, fields, hr⟩ := ready_step h fits clean rfl rfl
    exact step_popDefault h hr default
  | setdefault d k default =>
    obtain ⟨kind, fields, hr⟩ := ready_step h fits clean rfl rfl
    exact step_setdefault h hr (clean d kind fields rfl ((live_slots_iff h).mpr hr.live)).2 default
  | update d other =>
    obtain ⟨kind, fields, hd, hlive⟩ := dict_of h fits rfl
    obtain ⟨fields', hlive'⟩ := fits.2 kind fields hlive
    have hints := (clean d kind fields rfl hlive).2
    refine step_update h hd ((live_slots_iff h).mp hlive') (fun hkind => (hints hkind).1) ?_
    rintro rfl
    exact (hints rfl).2 fields' hlive'
  | contains d k =>
    obtain ⟨kind, fields, hr⟩ := ready_step h fits clean rfl rfl
    exact step_contains h hr
  | len d =>
    obtain ⟨kind, fields, hd, -⟩ := dict_of h fits rfl
    exact step_len h hd
  | keys d =>
    obtain ⟨kind, fields, hd, hlive⟩ := dict_of h fits rfl
    have hkeys := (clean d kind fields rfl hlive).2
    apply step_keys h hd
    · rintro rfl
      exact hkeys
    · rintro rfl
      exact hkeys
  | clear d =>
    obtain ⟨kind, fields, hd, hlive⟩ := dict_of h fits rfl
    exact step_clear h hd (clean d kind fields rfl hlive).2
  | free d =>
    obtain ⟨kind, fields, hd, hlive⟩ := dict_of h fits rfl
    exact step_free h hd (clean d kind fields rfl hlive).2
  | newString bytes => exact step_newString h bytes
  | dropString w => exact step_dropString h fits
  | newScalar kind bits =>
    exact good_alloc h (fun ⟨_, _, _, he⟩ => nomatch he) rfl rfl fun σ' answer hmap => hmap
  | newOther kind bits =>
    exact good_alloc h (fun ⟨_, _, _, he⟩ => nomatch he) rfl rfl fun σ' answer hmap => hmap
  | dropSlot a => exact step_dropSlot h fits

end Steps

section Runs

variable {rt : Runtime} {depth : Nat} {σ₀ σ : World}

theorem Start.inv (h : Start σ) : Inv rt none σ where
  body := h.body
  table d kind fields hd := absurd hd (h.noDict d kind fields)
  owned d a := by
    rintro ⟨bytes, id, ha⟩ _
    cases (h.strings a bytes id (some d) ha).1
  ids a bytes id owner ha := by
    obtain ⟨rfl, hlt⟩ := h.strings a bytes id owner ha
    rw [h.freed, h.copied]
    exact ⟨hlt, List.not_mem_nil, fun hid => absurd hid List.not_mem_nil, fun hne => absurd rfl hne⟩
  apart := h.apart
  freed := by
    rw [h.freed]
    exact ⟨List.nodup_nil, fun id hid => absurd hid List.not_mem_nil⟩
  copied := by
    rw [h.copied]
    exact ⟨List.nodup_nil, fun id hid => absurd hid List.not_mem_nil⟩
  copies id hid := by
    rw [h.copied] at hid
    cases hid

/-- The copies and the entries belong to each other. -/
theorem Inv.balanced (h : Inv rt none σ) : Balanced σ where
  keys d fields hd e he := by
    obtain ⟨a, bytes, id, hk, hslot, -, -⟩ := (h.table d .str fields hd).keys e he
    exact ⟨a, hk, bytes, id, hslot⟩
  once d a ha := by
    obtain ⟨fields, hd, e, he, hk⟩ := h.owned d a ha fun he => nomatch he
    obtain ⟨before, after, rfl⟩ := List.append_of_mem he
    refine ⟨before, e, after, hd, hk, ?_⟩
    intro e' he' hk'
    -- a second entry with this key would have the name of the first
    obtain ⟨hbefore, hafter, -⟩ := split_names (h.table d .str _ hd).nodup
    have hname : nameOf σ e'.2.1 = nameOf σ e.2.1 := by rw [hk, hk']
    rcases List.mem_append.mp he' with hb | ha
    · exact hbefore (List.mem_map.mpr ⟨e', hb, hname⟩)
    · exact hafter (List.mem_map.mpr ⟨e', ha, hname⟩)
  freed := h.freed.1
  copies id hid := by
    constructor
    · exact h.copies id hid
    · rintro ⟨a, bytes, d, ha⟩
      exact (h.ids a bytes id _ ha).2.1

theorem Run.inv (start : Start σ₀) (run : Run rt depth σ₀ σ) : Inv rt none σ := by
  induction run with
  | start => exact start.inv
  | step before fits clean taken ih =>
    rcases step_good depth ih fits clean with hfull | ⟨σ', answer, hstep, hinv, -, -⟩
    · rw [hfull] at taken
      cases taken
    · rw [hstep] at taken
      cases taken
      exact hinv

/-- One dictionary with integer keys. -/
def oneDict : World :=
  emptyWorld.put 0x20000 (.obj .int [])

theorem start_emptyWorld : Start emptyWorld where
  body _ _ ha := nomatch ha
  noDict _ _ _ hd := nomatch hd
  strings _ _ _ _ ha := nomatch ha
  apart _ _ _ _ _ _ _ ha := nomatch ha
  copied := rfl
  freed := rfl

theorem run_oneDict : Run smallHeap 0 emptyWorld oneDict := by
  have hstep : step smallHeap 0 emptyWorld (.new .int) = .ok (oneDict, .word 0x20000) := rfl
  refine .step .start ?_ ?_ hstep
  · exact ⟨fun d hd => (nomatch hd), trivial⟩
  · exact fun d kind fields hd => nomatch hd

end Runs

end Dicts

end Olive
