import Olive.DictRuns

/-! Dictionaries refine finite maps, as long as no step reaches a defect. -/

namespace Olive

namespace Dicts

open HashTable HashTyped

section Keys

variable {rt : Runtime} {σ : World} {d k : Word} {kind : KeyKind} {fields : KeyTable}

/-- A key that the runtime reads as what it is. -/
def Readable (σ : World) (w : Word) : Prop :=
  (isTaggedStrKey w = true → ∃ bytes, σ.strBytes w = some bytes) ∧
    (isTaggedStrKey w = false → σ.live w = none)

def classOf : Name → KeyClass
  | .text bytes => .str bytes
  | .int w => .scalar kindInt w

theorem classOf_injective : Function.Injective classOf := by
  intro a b h
  cases a with
  | text x =>
    cases b with
    | text y =>
      cases h
      rfl
    | int y => cases h
  | int x =>
    cases b with
    | text y => cases h
    | int y =>
      cases h
      rfl

theorem classifyKey_readable (h : Readable σ k) :
    classifyKey rt σ k = some (classOf (nameOf σ k)) := by
  unfold classifyKey nameOf
  cases htag : isTaggedStrKey k with
  | true =>
    obtain ⟨bytes, hbytes⟩ := h.1 htag
    rw [hbytes]
    rfl
  | false =>
    rw [h.2 htag]
    rfl

/-- The hash and the comparison see the name of a key. -/
theorem named (rt : Runtime) (σ : World) :
    Named (keyHash rt σ) (keyEq rt σ) (Readable σ) (nameOf σ) (codeOf rt) where
  hash a ha := by
    unfold keyHash
    rw [classifyKey_readable ha]
    cases nameOf σ a with
    | text bytes => rfl
    | int w => rfl
  eq a b ha hb := by
    unfold keyEq
    split_ifs with hab
    · rw [hab, decide_eq_true rfl]
    · rw [classifyKey_readable ha, classifyKey_readable hb]
      show some (decide (classOf (nameOf σ a) = classOf (nameOf σ b))) = _
      rw [decide_eq_decide.mpr classOf_injective.eq_iff]

theorem PlainInt.readable (h : PlainInt σ k) : Readable σ k :=
  ⟨fun htag => absurd h.1 (by rw [htag]; decide), fun _ => h.2⟩

theorem HoldsString.readable (h : HoldsString σ k) : Readable σ k :=
  ⟨fun _ => h.2, fun hfalse => absurd h.1 (by rw [hfalse]; decide)⟩

theorem HoldsString.name {bytes : List UInt8} (h : HoldsString σ k) (hbytes : σ.strBytes k = some bytes) :
    nameOf σ k = .text bytes := by
  unfold nameOf
  rw [if_pos h.1, hbytes]
  rfl

theorem live_slots_iff (h : Inv rt none σ) {slot : Slot} :
    σ.live d = some slot ↔ σ.slots d = some slot := by
  unfold World.live
  constructor
  · intro hd
    split_ifs at hd
    exact hd
  · intro hd
    obtain ⟨hlarge, hlow⟩ := h.body d slot hd
    rw [if_pos ⟨by omega, hlow⟩, hd]

/-- The key of an entry for a string. -/
theorem KeyOk.holds (h : Inv rt none σ) (hk : KeyOk σ none d .str k) : HoldsString σ k ∧
    ∀ bytes, σ.strBytes k = some bytes → ∀ b ∈ bytes, b ≠ 0 := by
  obtain ⟨a, bytes, id, rfl, hslot, hzero, -⟩ := hk
  have hbody := h.body a _ hslot
  have hbytes := strBytes_at hbody hslot
  refine ⟨⟨isTaggedStrKey_tag hbody, bytes, hbytes⟩, ?_⟩
  intro bytes' h'
  rw [hbytes] at h'
  cases h'
  exact hzero

/-- A dictionary that can be searched for a key. -/
structure Ready (rt : Runtime) (σ : World) (d : Word) (kind : KeyKind) (fields : KeyTable) (k : Word) :
    Prop where
  live : σ.slots d = some (.obj kind fields)
  represents : Represents (Readable σ) (nameOf σ) (codeOf rt) fields
  readable : Readable σ k
  str : kind = .str → HoldsString σ k
  int : kind = .int → PlainInt σ k ∧ PlainKeys σ fields

theorem represents_of (h : Inv rt none σ) (hd : σ.slots d = some (.obj kind fields))
    (hplain : kind = .int → PlainKeys σ fields) :
    Represents (Readable σ) (nameOf σ) (codeOf rt) fields := by
  obtain ⟨hhashes, hnodup, hkeys⟩ := h.table d kind fields hd
  refine ⟨fun e he => ⟨?_, hhashes e he⟩, hnodup⟩
  cases kind with
  | str => exact (KeyOk.holds h (hkeys e he)).1.readable
  | int => exact (hplain rfl e he).readable

theorem ready_of (h : Inv rt none σ) (hd : σ.slots d = some (.obj kind fields))
    (hstr : kind = .str → HoldsString σ k) (hint : kind = .int → PlainInt σ k ∧ PlainKeys σ fields) :
    Ready rt σ d kind fields k where
  live := hd
  represents := represents_of h hd fun hkind => (hint hkind).2
  readable := by
    cases kind with
    | str => exact (hstr rfl).readable
    | int => exact (hint rfl).1.readable
  str := hstr
  int := hint

theorem mapAt_of (hd : σ.slots d = some (.obj kind fields)) :
    mapAt σ d = some (asMap (nameOf σ) fields) := by
  unfold mapAt
  rw [hd]
  rfl

theorem active_of (h : Inv rt none σ) (hd : σ.slots d = some (.obj kind fields)) :
    isActiveObject σ d = true ∧ isPyobject rt σ d = false ∧ d ≠ 0 := by
  have hlive := (live_slots_iff h).mpr hd
  refine ⟨?_, ?_, ?_⟩
  · unfold isActiveObject
    rw [hlive]
    rfl
  · unfold isPyobject
    rw [hlive]
    rfl
  · rintro rfl
    have := (h.body 0 _ hd).1
    rw [show (0 : Word).toInt = 0 from rfl] at this
    omega

theorem Ready.mapGet (hr : Ready rt σ d kind fields k) :
    mapGet rt σ fields k = .ok ((asMap (nameOf σ) fields).lookup (nameOf σ k)) := by
  unfold Dicts.mapGet
  rw [(named rt σ).lookup hr.represents hr.readable]
  rfl

theorem Ready.find (hr : Ready rt σ d kind fields k) :
    find rt σ d k = .ok ((asMap (nameOf σ) fields).lookup (nameOf σ k)) := by
  unfold Dicts.find World.fields
  rw [hr.live]
  exact hr.mapGet

end Keys

section Maps

variable {rt : Runtime} {σ : World} {a d : Word} {loose : Option Word}

theorem not_isStr_obj {kind : KeyKind} {fields : KeyTable} (h : σ.slots d = some (.obj kind fields)) :
    ¬ IsStr (σ.slots d) := by
  rintro ⟨bytes, id, owner, he⟩
  rw [h] at he
  cases he

/-- The maps after a write to a slot that is no string. -/
theorem mapAt_write {o : Option Slot} (hold : ¬ IsStr (σ.slots a)) (hnew : ¬ IsStr o) :
    mapAt (σ.write a o) = Function.update (mapAt σ) a (o.bind (Slot.map σ)) := by
  have hmap : Slot.map (σ.write a o) = Slot.map σ := by
    funext slot
    cases slot with
    | obj kind fields =>
      exact congrArg some (asMap_congr fun e _ => nameOf_write hold hnew e.2.1)
    | boxed kind bits => rfl
    | str bytes id owner => rfl
    | other kind bits => rfl
  funext x
  unfold mapAt
  rw [hmap, write_slots]
  by_cases hx : x = a
  · rw [hx, Function.update_self, Function.update_self]
  · rw [Function.update_of_ne hx, Function.update_of_ne hx]

theorem mapAt_update_self {m : Option Map} (h : mapAt σ d = m) :
    Function.update (mapAt σ) d m = mapAt σ := by
  rw [← h]
  exact Function.update_eq_self d _

/-- The maps stay where the dictionaries and the copies that they own stay. -/
theorem mapAt_frame {σ' : World} (h : Inv rt loose σ) (hliterals : σ'.literals = σ.literals)
    (hobj : ∀ c kind fields, σ'.slots c = some (.obj kind fields) ↔ σ.slots c = some (.obj kind fields))
    (hkept : ∀ c b bytes id, σ.slots b = some (.str bytes id (some c)) → loose ≠ some b →
      σ'.slots b = some (.str bytes id (some c))) : mapAt σ' = mapAt σ := by
  funext c
  have hcases (τ : World) : mapAt τ c = none ∨ ∃ kind fields, τ.slots c = some (.obj kind fields) := by
    unfold mapAt
    cases hc : τ.slots c with
    | none => exact .inl rfl
    | some slot =>
      cases slot with
      | obj kind fields => exact .inr ⟨kind, fields, rfl⟩
      | boxed kind bits => exact .inl rfl
      | str bytes id owner => exact .inl rfl
      | other kind bits => exact .inl rfl
  have hsame {kind : KeyKind} {fields : KeyTable} (hc : σ.slots c = some (.obj kind fields)) :
      mapAt σ' c = mapAt σ c := by
    have hframe := ((h.table c kind fields hc).frame σ' none h.body hliterals
      fun b bytes id hb hne => ⟨hkept c b bytes id hb hne, fun he => nomatch he⟩).2
    rw [mapAt_of hc, mapAt_of ((hobj c kind fields).mpr hc), asMap_congr hframe]
  rcases hcases σ with hnone | ⟨kind, fields, hc⟩
  · rcases hcases σ' with hnone' | ⟨kind, fields, hc⟩
    · rw [hnone, hnone']
    · exact hsame ((hobj c kind fields).mp hc)
  · exact hsame hc

theorem mapAt_born {bytes : List UInt8} {owner : Option Word} (h : Inv rt none σ) (hfresh : Fresh σ a) :
    mapAt (born σ a bytes owner) = mapAt σ := by
  have hslots (x : Word) : (born σ a bytes owner).slots x =
      if x = a then some (.str bytes σ.births owner) else σ.slots x :=
    Function.update_apply ..
  refine mapAt_frame h rfl ?_ ?_
  · intro c kind fields
    rw [hslots]
    split_ifs with hc
    · rw [hc, hfresh.1]
      exact ⟨fun he => (nomatch he), fun he => (nomatch he)⟩
    · rfl
  · intro c b bytes' id hb _
    rw [hslots, if_neg, hb]
    rintro rfl
    rw [hfresh.1] at hb
    cases hb

theorem mapAt_gone {bytes : List UInt8} {id : Nat} {owner : Option Word} (h : Inv rt loose σ)
    (ha : σ.slots a = some (.str bytes id owner))
    (hfree : owner = none ∧ loose = none ∨ loose = some a) : mapAt (gone σ a id) = mapAt σ := by
  have hslots (x : Word) : (gone σ a id).slots x = if x = a then none else σ.slots x :=
    Function.update_apply ..
  refine mapAt_frame h rfl ?_ ?_
  · intro c kind fields
    rw [hslots]
    split_ifs with hc
    · rw [hc, ha]
      exact ⟨fun he => (nomatch he), fun he => (nomatch he)⟩
    · rfl
  · intro c b bytes' id' hb hne
    rw [hslots, if_neg, hb]
    rintro rfl
    rcases hfree with ⟨ho, -⟩ | hl
    · rw [ha, ho] at hb
      cases hb
    · exact hne hl

end Maps

section Set

variable {rt : Runtime} {σ : World} {d k v : Word} {kind : KeyKind} {fields fields' : KeyTable}

/-- A new map that has the keys of the old one. -/
theorem Inv.assign (h : Inv rt none σ) (hd : σ.slots d = some (.obj kind fields))
    (htable : TableOk rt σ none d kind fields')
    (hkeys : ∀ e ∈ fields, ∃ e' ∈ fields', e'.2.1 = e.2.1) :
    Inv rt none (σ.put d (.obj kind fields')) := by
  refine h.write ?_ (not_isStr_obj hd) ?_ (fun b he => nomatch he) (fun b he => nomatch he) ?_ ?_
  · intro s _
    exact h.body d _ hd
  · rintro ⟨bytes, id, owner, he⟩
    cases he
  · intro kind' fields'' he
    cases he
    exact htable
  · intro b hb _
    obtain ⟨fields₀, hd₀, e, he, hkey⟩ := h.owned d b hb (fun he => nomatch he)
    rw [hd] at hd₀
    cases hd₀
    obtain ⟨e', he', hsame⟩ := hkeys e he
    exact ⟨fields', rfl, e', he', hsame.trans hkey⟩

theorem mapAt_put (hd : σ.slots d = some (.obj kind fields)) :
    mapAt (σ.put d (.obj kind fields')) =
      Function.update (mapAt σ) d (some (asMap (nameOf σ) fields')) :=
  mapAt_write (not_isStr_obj hd) fun ⟨_, _, _, he⟩ => nomatch he

theorem PlainInt.put {w : Word} (hw : PlainInt σ w) (h : Inv rt none σ)
    (hd : σ.slots d = some (.obj kind fields)) : PlainInt (σ.put d (.obj kind fields')) w := by
  have hne : w ≠ d := by
    rintro rfl
    have hlive := (live_slots_iff h).mpr hd
    rw [hw.2] at hlive
    cases hlive
  refine ⟨hw.1, ?_⟩
  have hsame : (σ.put d (.obj kind fields')).slots w = σ.slots w := Function.update_of_ne hne _ _
  have hlive := hw.2
  unfold World.live at hlive ⊢
  rw [hsame]
  exact hlive

/-- What `olive_obj_set` leaves. -/
structure SetDone (rt : Runtime) (σ : World) (d : Word) (kind : KeyKind) (m : Map) (σ' : World) :
    Prop where
  inv : Inv rt none σ'
  dict : ∃ fields', σ'.slots d = some (.obj kind fields') ∧ (kind = .int → PlainKeys σ' fields')
  map : mapAt σ' = Function.update (mapAt σ) d (some m)
  keeps : ∀ a slot, a ≠ d → σ.slots a = some slot → σ'.slots a = some slot
  plain : kind = .int → ∀ w, PlainInt σ w → PlainInt σ' w
  literals : σ'.literals = σ.literals

/-- An assignment to the map of a dictionary. -/
theorem setDone_put {m : Map} (h : Inv rt none σ) (hd : σ.slots d = some (.obj kind fields))
    (htable : TableOk rt σ none d kind fields')
    (hkeys : ∀ e ∈ fields, ∃ e' ∈ fields', e'.2.1 = e.2.1)
    (hplain : kind = .int → PlainKeys σ fields') (hm : asMap (nameOf σ) fields' = m) :
    SetDone rt σ d kind m (σ.put d (.obj kind fields')) where
  inv := h.assign hd htable hkeys
  dict := ⟨fields', Function.update_self .., fun hkind e he => (hplain hkind e he).put h hd⟩
  map := by
    rw [mapAt_put hd, hm]
  keeps a slot hne ha := by
    show Function.update _ _ _ _ = _
    rw [Function.update_of_ne hne, ha]
  plain _ w hw := hw.put h hd
  literals := rfl

theorem mapInsert_eq {key : Word} {out : KeyTable}
    (h : HashTable.insert (keyHash rt σ) (keyEq rt σ) fields key v = some out) :
    mapInsert rt σ fields key v = .ok out := by
  unfold mapInsert
  rw [h]
  rfl

/-- The key is held: its value changes. -/
theorem set_held (h : Inv rt none σ) (hr : Ready rt σ d kind fields k)
    (hheld : nameOf σ k ∈ names (nameOf σ) fields) :
    ∃ out, mapInsert rt σ fields k v = .ok out ∧
      SetDone rt σ d kind ((asMap (nameOf σ) fields).insert (nameOf σ k) v)
        (σ.put d (.obj kind out)) := by
  obtain ⟨before, e, after, rfl, hname⟩ := exists_split hheld
  have hnodup := hr.represents.nodup
  have hinsert := (named rt σ).insert_held hr.represents hr.readable hname v
  refine ⟨_, mapInsert_eq hinsert, ?_⟩
  have htable := h.table d kind _ hr.live
  have hmem {e' : Word × Word × Word} (he' : e' ∈ before ++ (e.1, e.2.1, v) :: after) :
      ∃ e'' ∈ before ++ e :: after, e''.1 = e'.1 ∧ e''.2.1 = e'.2.1 := by
    rcases List.mem_append.mp he' with hb | ha
    · exact ⟨e', List.mem_append_left _ hb, rfl, rfl⟩
    · rcases List.mem_cons.mp ha with rfl | ha
      · exact ⟨e, List.mem_append_right _ List.mem_cons_self, rfl, rfl⟩
      · exact ⟨e', List.mem_append_right _ (List.mem_cons_of_mem _ ha), rfl, rfl⟩
  have hnames : names (nameOf σ) (before ++ (e.1, e.2.1, v) :: after) =
      names (nameOf σ) (before ++ e :: after) := by
    rw [names_append, names_append, names_cons, names_cons]
  have hmap : asMap (nameOf σ) (before ++ (e.1, e.2.1, v) :: after) =
      (asMap (nameOf σ) (before ++ e :: after)).insert (nameOf σ e.2.1) v := asMap_assign hnodup rfl
  rw [hname] at hmap
  refine setDone_put h hr.live ⟨?_, ?_, ?_⟩ ?_ ?_ hmap
  · intro e' he'
    obtain ⟨e'', he'', hhash, hkey⟩ := hmem he'
    rw [← hhash, ← hkey]
    exact htable.hashes e'' he''
  · rw [hnames]
    exact hnodup
  · intro e' he'
    obtain ⟨e'', he'', -, hkey⟩ := hmem he'
    rw [← hkey]
    exact htable.keys e'' he''
  · intro e' he'
    rcases List.mem_append.mp he' with hb | ha
    · exact ⟨e', List.mem_append_left _ hb, rfl⟩
    · rcases List.mem_cons.mp ha with rfl | ha
      · exact ⟨_, List.mem_append_right _ List.mem_cons_self, rfl⟩
      · exact ⟨e', List.mem_append_right _ (List.mem_cons_of_mem _ ha), rfl⟩
  · intro hkind e' he'
    obtain ⟨e'', he'', -, hkey⟩ := hmem he'
    rw [← hkey]
    exact (hr.int hkind).2 e'' he''

/-- A table with an entry more. -/
theorem TableOk.extend (h : TableOk rt σ none d kind fields) (hnew : nameOf σ k ∉ names (nameOf σ) fields)
    (hkey : KeyOk σ none d kind k) :
    TableOk rt σ none d kind (fields ++ [(codeOf rt (nameOf σ k), k, v)]) := by
  refine ⟨?_, ?_, ?_⟩
  · intro e he
    rcases List.mem_append.mp he with he | he
    · exact h.hashes e he
    · rw [List.mem_singleton.mp he]
  · rw [names_append]
    refine List.nodup_append.mpr ⟨h.nodup, List.nodup_singleton _, ?_⟩
    intro a ha b hb hab
    have hname : a = nameOf σ k := hab.trans (List.mem_singleton.mp hb)
    rw [hname] at ha
    exact hnew ha
  · intro e he
    rcases List.mem_append.mp he with he | he
    · exact h.keys e he
    · rw [List.mem_singleton.mp he]
      exact hkey

/-- A new integer key. -/
theorem set_new_int (h : Inv rt none σ) (hr : Ready rt σ d .int fields k)
    (hnew : nameOf σ k ∉ names (nameOf σ) fields) :
    ∃ out, mapInsert rt σ fields k v = .ok out ∧
      SetDone rt σ d .int ((asMap (nameOf σ) fields).insert (nameOf σ k) v)
        (σ.put d (.obj .int out)) := by
  have hinsert := (named rt σ).insert_new hr.represents hr.readable hnew v
  obtain ⟨hk, hkeys⟩ := hr.int rfl
  refine ⟨_, mapInsert_eq hinsert, ?_⟩
  refine setDone_put h hr.live ((h.table d .int fields hr.live).extend hnew hk.1) ?_ ?_
    (asMap_extend hnew)
  · intro e he
    exact ⟨e, List.mem_append_left _ he, rfl⟩
  · intro _ e he
    rcases List.mem_append.mp he with he | he
    · exact hkeys e he
    · rw [List.mem_singleton.mp he]
      exact hk

/-- A new string key: the entry gets a copy. -/
theorem set_new_str {bytes : List UInt8} {a : Word} (h : Inv rt none σ)
    (hr : Ready rt σ d .str fields k) (hbytes : σ.strBytes k = some bytes)
    (hzero : ∀ b ∈ bytes, b ≠ 0) (hnew : nameOf σ k ∉ names (nameOf σ) fields)
    (hfresh : Fresh σ a) :
    ∃ out, mapInsert rt (born σ a bytes (some d)) fields (a ||| 3) v = .ok out ∧
      SetDone rt σ d .str ((asMap (nameOf σ) fields).insert (nameOf σ k) v)
        ((born σ a bytes (some d)).put d (.obj .str out)) := by
  have hloose : Inv rt (if some d = none then none else some a) (born σ a bytes (some d)) :=
    h.born hfresh
  rw [if_neg (Option.some_ne_none d)] at hloose
  have hbody : IsBody a := ⟨hfresh.2.1, hfresh.2.2⟩
  have hslots (x : Word) : (born σ a bytes (some d)).slots x =
      if x = a then some (.str bytes σ.births (some d)) else σ.slots x :=
    Function.update_apply ..
  have hkept {x : Word} {slot : Slot} (hx : σ.slots x = some slot) :
      (born σ a bytes (some d)).slots x = some slot := by
    rw [hslots, if_neg, hx]
    rintro rfl
    rw [hfresh.1] at hx
    cases hx
  have hcopy : (born σ a bytes (some d)).slots a = some (.str bytes σ.births (some d)) := by
    rw [hslots, if_pos rfl]
  have hd := hkept hr.live
  obtain ⟨htable, hnames⟩ := (h.table d .str fields hr.live).frame
    (born σ a bytes (some d)) none h.body rfl fun b bytes' id hb _ => ⟨hkept hb, fun he => nomatch he⟩
  have hname : nameOf (born σ a bytes (some d)) (a ||| 3) = nameOf σ k := by
    rw [(hr.str rfl).name hbytes]
    unfold nameOf
    rw [if_pos (isTaggedStrKey_tag hbody), strBytes_at hbody hcopy]
    rfl
  have hlist : names (nameOf (born σ a bytes (some d))) fields = names (nameOf σ) fields :=
    List.map_congr_left hnames
  have hnew' : nameOf (born σ a bytes (some d)) (a ||| 3) ∉
      names (nameOf (born σ a bytes (some d))) fields := by
    rw [hname, hlist]
    exact hnew
  have hreadable {x : Word} (hx : KeyOk (born σ a bytes (some d)) none d .str x) :
      Readable (born σ a bytes (some d)) x := by
    obtain ⟨b, bytes', id, rfl, hslot, -, -⟩ := hx
    have hb := hloose.body b _ hslot
    exact ⟨fun _ => ⟨bytes', strBytes_at hb hslot⟩, fun hfalse =>
      absurd (isTaggedStrKey_tag hb) (by rw [hfalse]; decide)⟩
  have hkey : KeyOk (born σ a bytes (some d)) none d .str (a ||| 3) :=
    ⟨a, bytes, σ.births, rfl, hcopy, hzero, fun he => nomatch he⟩
  have hrep : Represents (Readable (born σ a bytes (some d))) (nameOf (born σ a bytes (some d)))
      (codeOf rt) fields :=
    ⟨fun e he => ⟨hreadable (htable.keys e he), htable.hashes e he⟩, htable.nodup⟩
  have hinsert := (named rt (born σ a bytes (some d))).insert_new hrep (hreadable hkey) hnew' v
  refine ⟨_, mapInsert_eq hinsert, ?_, ?_, ?_, ?_, ?_, rfl⟩
  · refine hloose.write ?_ (not_isStr_obj hd) ?_ ?_ (fun b he => nomatch he) ?_ ?_
    · intro s _
      exact h.body d _ hr.live
    · rintro ⟨bytes', id, owner, he⟩
      cases he
    · intro b he
      cases he
      exact ⟨bytes, σ.births, hcopy⟩
    · intro kind' fields' he
      cases he
      exact htable.extend hnew' hkey
    · intro b hb _
      by_cases hba : b = a
      · exact ⟨_, rfl, _, List.mem_append_right _ (List.mem_singleton_self _), by rw [hba]⟩
      · obtain ⟨fields₀, hd₀, e, he, hk⟩ := hloose.owned d b hb fun he => hba (Option.some.inj he).symm
        rw [hd] at hd₀
        cases hd₀
        exact ⟨_, rfl, e, List.mem_append_left _ he, hk⟩
  · exact ⟨_, Function.update_self .., fun hkind => nomatch hkind⟩
  · rw [mapAt_put hd, mapAt_born h hfresh, asMap_extend hnew', hname, asMap_congr hnames]
  · intro x slot hne hx
    show Function.update _ _ _ _ = _
    rw [Function.update_of_ne hne]
    exact hkept hx
  · intro hkind
    cases hkind

/-- The path of `olive_obj_set` for a live dictionary. -/
theorem oliveObjSet_live (h : Inv rt none σ) (hd : σ.slots d = some (.obj kind fields)) :
    oliveObjSet rt σ d k v =
      if isTaggedStrKey k then
        (mapGet rt σ fields k).bind fun held =>
          if held.isNone then
            (reads (σ.cstr k)).bind fun bytes =>
              (keyAlloc rt σ d bytes).bind fun (σ, owned) =>
                (mapInsert rt σ fields owned v).map fun fields => (σ.put d (.obj kind fields), d)
          else (mapInsert rt σ fields k v).map fun fields => (σ.put d (.obj kind fields), d)
      else (mapInsert rt σ fields k v).map fun fields => (σ.put d (.obj kind fields), d) := by
  obtain ⟨hactive, hpy, hne⟩ := active_of h hd
  unfold oliveObjSet World.fields
  rw [if_neg hne, if_neg (not_not.mpr hactive), if_neg (by rw [hpy]; decide), hd]
  rfl

theorem keyAlloc_eq (rt : Runtime) (σ : World) (d : Word) (bytes : List UInt8) :
    keyAlloc rt σ d bytes = .error .outOfMemory ∨ ∃ a, Fresh σ a ∧ keyAlloc rt σ d bytes = .ok (born σ a bytes (some d), a ||| 3) := by
  unfold keyAlloc strAlloc
  cases hnext : rt.next σ with
  | none => exact .inl rfl
  | some a => exact .inr ⟨a, rt.next_fresh σ a hnext, rfl⟩

theorem oliveObjSet_done (h : Inv rt none σ) (hr : Ready rt σ d kind fields k)
    (hzero : kind = .str → ∀ bytes, σ.strBytes k = some bytes → ∀ b ∈ bytes, b ≠ 0) (v : Word) :
    oliveObjSet rt σ d k v = .error .outOfMemory ∨
      ∃ σ', oliveObjSet rt σ d k v = .ok (σ', d) ∧
        SetDone rt σ d kind ((asMap (nameOf σ) fields).insert (nameOf σ k) v) σ' := by
  rw [oliveObjSet_live h hr.live, hr.mapGet]
  by_cases hheld : nameOf σ k ∈ names (nameOf σ) fields
  · right
    obtain ⟨out, hinsert, hdone⟩ := set_held (v := v) h hr hheld
    refine ⟨_, ?_, hdone⟩
    obtain ⟨held, hlookup⟩ : ∃ held, (asMap (nameOf σ) fields).lookup (nameOf σ k) = some held := by
      rw [← Option.ne_none_iff_exists', Ne, lookup_asMap_eq_none, not_not]
      exact hheld
    rw [hlookup, hinsert]
    split_ifs <;> rfl
  · rw [lookup_asMap_eq_none.mpr hheld]
    cases kind with
    | int =>
      right
      obtain ⟨out, hinsert, hdone⟩ := set_new_int (v := v) h hr hheld
      refine ⟨_, ?_, hdone⟩
      rw [if_neg (by rw [(hr.int rfl).1.1]; decide), hinsert]
      rfl
    | str =>
      obtain ⟨htag, bytes, hbytes⟩ := hr.str rfl
      have hcstr : σ.cstr k = some bytes := by
        unfold World.cstr
        rw [hbytes, Option.map_some, List.takeWhile_eq_self_iff.mpr]
        intro b hb
        exact decide_eq_true (hzero rfl bytes hbytes b hb)
      rw [if_pos htag]
      show (((reads (σ.cstr k)).bind _ : Outcome (World × Word)) = _ ∨ _)
      rw [hcstr]
      show ((keyAlloc rt σ d bytes).bind _ : Outcome (World × Word)) = _ ∨
        ∃ σ', ((keyAlloc rt σ d bytes).bind _ : Outcome (World × Word)) = .ok (σ', d) ∧ _
      rcases keyAlloc_eq rt σ d bytes with hfull | ⟨a, hfresh, halloc⟩
      · left
        rw [hfull]
        rfl
      · right
        obtain ⟨out, hinsert, hdone⟩ := set_new_str (v := v) h hr hbytes (hzero rfl bytes hbytes) hheld hfresh
        refine ⟨_, ?_, hdone⟩
        rw [halloc]
        show ((mapInsert rt (born σ a bytes (some d)) fields (a ||| 3) v).map _ : Outcome (World × Word)) = _
        rw [hinsert]
        rfl

end Set

section Take

variable {rt : Runtime} {σ : World} {d k v a : Word} {kind : KeyKind} {fields : KeyTable}

/-- What an operation leaves that may take entries out of the dictionary at `d`. -/
structure TakeDone (rt : Runtime) (σ : World) (d : Word) (m : Option Map) (σ' : World) : Prop where
  inv : Inv rt none σ'
  map : mapAt σ' = Function.update (mapAt σ) d m
  keeps : ∀ a slot, a ≠ d → ¬ Owned σ d a → σ.slots a = some slot → σ'.slots a = some slot

/-- A string in a slot, seen by `str_free`. -/
theorem strFree_at {bytes : List UInt8} {id : Nat} {owner : Option Word} (hbody : IsBody a)
    (ha : σ.slots a = some (.str bytes id owner)) : strFree σ (a ||| 3) = .ok (gone σ a id) := by
  have hne : a ≠ 0 := by
    rintro rfl
    have := hbody.1
    rw [show (0 : Word).toInt = 0 from rfl] at this
    omega
  have hlive : σ.live a = some (.str bytes id owner) := by
    unfold World.live
    rw [if_pos ⟨by have := hbody.1; omega, hbody.2⟩, ha]
  unfold strFree
  rw [strBody_tag hbody.2, if_neg, hlive]
  · rfl
  · rw [not_or, not_not]
    exact ⟨hne, strIsHeap_tag hbody.2⟩

/-- A dictionary with integer keys owns no strings. -/
theorem not_owned_int (h : Inv rt none σ) (hd : σ.slots d = some (.obj .int fields)) : ¬ Owned σ d a := by
  intro ha
  obtain ⟨fields', hd', -⟩ := h.owned d a ha fun he => nomatch he
  rw [hd] at hd'
  cases hd'

variable {before after : KeyTable} {e : Word × Word × Word}

theorem TableOk.without {loose : Option Word} (h : TableOk rt σ none d kind (before ++ e :: after))
    (hloose : ∀ e' ∈ before ++ after, ∀ b, e'.2.1 = b ||| 3 → loose ≠ some b) :
    TableOk rt σ loose d kind (before ++ after) := by
  have hmem {e' : Word × Word × Word} (he' : e' ∈ before ++ after) : e' ∈ before ++ e :: after := by
    rcases List.mem_append.mp he' with hb | ha
    · exact List.mem_append_left _ hb
    · exact List.mem_append_right _ (List.mem_cons_of_mem _ ha)
  refine ⟨fun e' he' => h.hashes e' (hmem he'), (split_names h.nodup).2.2, ?_⟩
  intro e' he'
  have hkey := h.keys e' (hmem he')
  cases kind with
  | str =>
    obtain ⟨b, bytes, id, hk, hslot, hzero, -⟩ := hkey
    exact ⟨b, bytes, id, hk, hslot, hzero, hloose e' he' b hk⟩
  | int => exact hkey

/-- An entry goes, and the copy of its key. -/
theorem drop_entry (h : Inv rt none σ) (hd : σ.slots d = some (.obj kind (before ++ e :: after))) :
    ∃ σ', (if isTaggedStrKey e.2.1 then strFree (σ.put d (.obj kind (before ++ after))) e.2.1
        else .ok (σ.put d (.obj kind (before ++ after)))) = .ok σ' ∧
      TakeDone rt σ d (some ((asMap (nameOf σ) (before ++ e :: after)).erase (nameOf σ e.2.1))) σ' ∧
      σ'.slots d = some (.obj kind (before ++ after)) := by
  have htable := h.table d kind _ hd
  have hmem : e ∈ before ++ e :: after := List.mem_append_right _ List.mem_cons_self
  have hobj : ¬ IsStr (some (Slot.obj kind (before ++ after))) := fun ⟨_, _, _, he⟩ => nomatch he
  have hput : mapAt (σ.put d (.obj kind (before ++ after))) = Function.update (mapAt σ) d
      (some ((asMap (nameOf σ) (before ++ e :: after)).erase (nameOf σ e.2.1))) := by
    rw [mapAt_put hd, asMap_without htable.nodup]
  have hentry {b : Word} (hb : Owned σ d b) (hne : e.2.1 ≠ b ||| 3) :
      ∃ fields, some (Slot.obj kind (before ++ after)) = some (.obj .str fields) ∧
        ∃ e' ∈ fields, e'.2.1 = b ||| 3 := by
    obtain ⟨fields', hd', e', he', hk⟩ := h.owned d b hb fun he => nomatch he
    rw [hd] at hd'
    cases hd'
    refine ⟨_, rfl, e', ?_, hk⟩
    rcases List.mem_append.mp he' with hb | ha
    · exact List.mem_append_left _ hb
    · rcases List.mem_cons.mp ha with rfl | ha
      · exact absurd hk hne
      · exact List.mem_append_right _ ha
  cases kind with
  | int =>
    have hplain : isTaggedStrKey e.2.1 = false := htable.keys e hmem
    refine ⟨_, if_neg (by rw [hplain]; decide), ⟨?_, hput, ?_⟩, Function.update_self ..⟩
    · exact h.write (fun s _ => h.body d _ hd) (not_isStr_obj hd) hobj (fun b he => nomatch he)
        (fun b he => nomatch he) (fun kind' fields' he => by
          cases he
          exact htable.without fun e' _ b _ he => nomatch he)
        (fun b hb _ => absurd hb (not_owned_int h hd))
    · intro x slot hne _ hx
      show Function.update _ _ _ _ = _
      rw [Function.update_of_ne hne, hx]
  | str =>
    obtain ⟨b, bytes, id, hk, hslot, -, -⟩ := htable.keys e hmem
    have hbody := h.body b _ hslot
    have hbd : b ≠ d := by
      rintro rfl
      rw [hd] at hslot
      cases hslot
    have hslot' : (σ.put d (.obj .str (before ++ after))).slots b = some (.str bytes id (some d)) := by
      show Function.update _ _ _ _ = _
      rw [Function.update_of_ne hbd, hslot]
    -- two entries with one key would have one name
    have hloose : Inv rt (some b) (σ.put d (.obj .str (before ++ after))) := by
      refine h.write (fun s _ => h.body d _ hd) (not_isStr_obj hd) hobj (fun b he => nomatch he) ?_ ?_ ?_
      · intro c he
        cases he
        exact ⟨bytes, id, hslot⟩
      · intro kind' fields' he
        cases he
        refine htable.without fun e' he' c hc hbc => ?_
        obtain ⟨hbefore, hafter, -⟩ := split_names htable.nodup
        have hsame : nameOf σ e'.2.1 = nameOf σ e.2.1 := by
          rw [hc, hk, Option.some.inj hbc]
        rcases List.mem_append.mp he' with hb | ha
        · exact hbefore (List.mem_map.mpr ⟨e', hb, hsame⟩)
        · exact hafter (List.mem_map.mpr ⟨e', ha, hsame⟩)
      · intro c hc hne
        refine hentry hc fun hcb => hne ?_
        obtain ⟨bytes', id', hslotc⟩ := hc
        rw [hk] at hcb
        rw [tag_injective hbody.2 (h.body c _ hslotc).2 hcb]
    refine ⟨gone (σ.put d (.obj .str (before ++ after))) b id, ?_, ⟨?_, ?_, ?_⟩, ?_⟩
    · rw [hk, if_pos (isTaggedStrKey_tag hbody), strFree_at hbody hslot']
    · exact hloose.gone hslot' (.inr rfl)
    · rw [mapAt_gone hloose hslot' (.inr rfl), hput]
    · intro x slot hne hown hx
      have hxb : x ≠ b := by
        rintro rfl
        exact hown ⟨bytes, id, hslot⟩
      show Function.update (Function.update _ _ _) _ _ _ = _
      rw [Function.update_of_ne hxb, Function.update_of_ne hne, hx]
    · show Function.update (Function.update _ _ _) _ _ _ = _
      rw [Function.update_of_ne (Ne.symm hbd), Function.update_self]

/-- A key that is taken out gives its value, and goes. -/
theorem takeEntry_done (h : Inv rt none σ) (hr : Ready rt σ d kind fields k) :
    ∃ σ', takeEntry rt σ d k = .ok (σ', (asMap (nameOf σ) fields).lookup (nameOf σ k)) ∧
      TakeDone rt σ d (some ((asMap (nameOf σ) fields).erase (nameOf σ k))) σ' := by
  unfold takeEntry World.fields
  rw [hr.live]
  show ∃ σ', (mapRemove rt σ fields k).bind _ = _ ∧ _
  by_cases hheld : nameOf σ k ∈ names (nameOf σ) fields
  · obtain ⟨before, e, after, rfl, hname⟩ := exists_split hheld
    have hremove : mapRemove rt σ (before ++ e :: after) k = .ok (some e.2, before ++ after) := by
      unfold mapRemove
      rw [(named rt σ).removeEntry_held hr.represents hr.readable hname]
      rfl
    obtain ⟨σ', hfree, hdone, -⟩ := drop_entry h hr.live
    rw [hname] at hdone
    refine ⟨σ', ?_, hdone⟩
    rw [hremove, ← hname, lookup_asMap_split hr.represents.nodup]
    show (if isTaggedStrKey e.2.1 then (strFree (σ.put d (.obj kind (before ++ after))) e.2.1).map _
      else .ok (σ.put d (.obj kind (before ++ after)), some e.2.2)) = _
    split_ifs at hfree ⊢ with htag
    · rw [hfree]
      rfl
    · cases hfree
      rfl
  · have hremove : mapRemove rt σ fields k = .ok (none, fields) := by
      unfold mapRemove
      rw [(named rt σ).removeEntry_new hr.represents hr.readable hheld]
      rfl
    have hnone := lookup_asMap_eq_none.mpr hheld
    have herase : (asMap (nameOf σ) fields).erase (nameOf σ k) = asMap (nameOf σ) fields := by
      apply Finmap.ext_lookup
      intro n
      by_cases hn : n = nameOf σ k
      · rw [hn, Finmap.lookup_erase, hnone]
      · rw [Finmap.lookup_erase_ne hn]
    refine ⟨σ, ?_, h, ?_, fun x slot _ _ hx => hx⟩
    · rw [hremove, hnone]
      rfl
    · rw [herase, mapAt_update_self (mapAt_of hr.live)]

theorem TakeDone.trans {σ₁ σ₂ : World} {m m' : Option Map} (h : TakeDone rt σ d m σ₁)
    (h' : TakeDone rt σ₁ d m' σ₂) : TakeDone rt σ d m' σ₂ where
  inv := h'.inv
  map := by
    rw [h'.map, h.map, Function.update_idem]
  keeps x slot hne hown hx := by
    have hx₁ := h.keeps x slot hne hown hx
    refine h'.keeps x slot hne ?_ hx₁
    rintro ⟨bytes, id, hslot⟩
    rw [hx₁] at hslot
    cases hslot
    exact hown ⟨bytes, id, hx⟩

theorem put_put (s s' : Slot) : (σ.put d s).put d s' = σ.put d s' := by
  unfold World.put World.write
  simp only [Function.update_idem]

theorem put_self {s : Slot} (h : σ.slots d = some s) : σ.put d s = σ := by
  unfold World.put World.write
  rw [← h, Function.update_eq_self]

/-- A string is freed whatever another slot holds. -/
theorem strFree_put {s : Slot} {σ' : World} (hne : strBody k ≠ d)
    (h : strFree (σ.put d s) k = .ok (σ'.put d s)) (hd : σ'.slots d = some s) :
    ∃ σ₁, strFree σ k = .ok σ₁ ∧ σ₁.put d s = σ' := by
  have hsame : (σ.put d s).live (strBody k) = σ.live (strBody k) := by
    unfold World.live World.put World.write
    simp only [Function.update_of_ne hne]
  rw [put_self hd] at h
  unfold strFree at h ⊢
  rw [hsame] at h
  split_ifs at h ⊢ with hnone
  · cases h
    exact ⟨σ, rfl, rfl⟩
  · cases hlive : σ.live (strBody k) with
    | none =>
      simp only [hlive] at h
      cases h
      exact ⟨σ, rfl, rfl⟩
    | some slot =>
      cases slot with
      | str bytes id owner =>
        simp only [hlive] at h
        cases h
        refine ⟨_, rfl, ?_⟩
        unfold World.release World.put World.write
        simp only [Function.update_comm hne]
      | obj kind fields =>
        simp only [hlive] at h
        cases h
      | boxed kind bits =>
        simp only [hlive] at h
        cases h
      | other kind bits =>
        simp only [hlive] at h
        cases h

/-- The loop over the keys of a dictionary, whose map is emptied after it. -/
theorem freeKeys_done (h : Inv rt none (σ.put d (.obj kind fields))) :
    ∃ σ', freeKeys (keysOf fields) σ = .ok σ' ∧
      TakeDone rt (σ.put d (.obj kind fields)) d (some ∅) (σ'.put d (.obj kind [])) := by
  induction fields generalizing σ with
  | nil =>
    refine ⟨σ, rfl, h, ?_, fun x slot _ _ hx => hx⟩
    have hmap : mapAt (σ.put d (.obj kind [])) d = some ∅ := by
      rw [mapAt_of (Function.update_self ..), asMap_nil]
    exact (mapAt_update_self hmap).symm
  | cons e rest ih =>
    have hd : (σ.put d (.obj kind (e :: rest))).slots d = some (.obj kind ([] ++ e :: rest)) :=
      Function.update_self ..
    obtain ⟨σ₁, hfree, hdone, hd₁⟩ := drop_entry h hd
    rw [List.nil_append] at hd₁
    rw [put_put, List.nil_append] at hfree
    show ∃ σ', (if isTaggedStrKey e.2.1 then (strFree σ e.2.1).bind (freeKeys (keysOf rest))
      else freeKeys (keysOf rest) σ) = .ok σ' ∧ _
    have hstep : ∃ σ₂, (if isTaggedStrKey e.2.1 then strFree σ e.2.1 else .ok σ) = .ok σ₂ ∧
        σ₂.put d (.obj kind rest) = σ₁ := by
      split_ifs at hfree ⊢ with htag
      · have hne : strBody e.2.1 ≠ d := by
          have hkey := (h.table d kind _ hd).keys e List.mem_cons_self
          cases kind with
          | int =>
            have hplain : isTaggedStrKey e.2.1 = false := hkey
            rw [hplain] at htag
            cases htag
          | str =>
            obtain ⟨b, bytes, id, hk, hslot, -, -⟩ := hkey
            rw [hk, strBody_tag (h.body b _ hslot).2]
            rintro rfl
            rw [hd] at hslot
            cases hslot
        refine strFree_put hne ?_ hd₁
        rw [put_self hd₁]
        exact hfree
      · cases hfree
        exact ⟨σ, rfl, rfl⟩
    obtain ⟨σ₂, hσ₂, rfl⟩ := hstep
    obtain ⟨σ', hrest, hdone'⟩ := ih hdone.inv
    refine ⟨σ', ?_, hdone.trans hdone'⟩
    split_ifs at hσ₂ ⊢ with htag
    · rw [hσ₂]
      exact hrest
    · cases hσ₂
      exact hrest

theorem freeValues_none {freeDict : World → Word → Outcome World} {vs : List Word}
    (h : ∀ v ∈ vs, σ.live v = none) : freeValues rt freeDict vs σ = .ok σ := by
  induction vs with
  | nil => rfl
  | cons v rest ih =>
    have hactive : isActiveObject σ v = false := by
      unfold isActiveObject
      rw [h v List.mem_cons_self]
      rfl
    unfold freeValues
    rw [if_neg (by rw [hactive]; decide)]
    exact ih fun v hv => h v (List.mem_cons_of_mem _ hv)

/-- What `olive_obj_clear` and `olive_free_obj` do before the map is emptied. -/
theorem drain_done (h : Inv rt none σ) (hd : σ.slots d = some (.obj kind fields))
    (hvalues : ∀ e ∈ fields, σ.live e.2.2 = none) (freeDict : World → Word → Outcome World) :
    freeValues rt freeDict (valuesOf fields) σ = .ok σ ∧
      ∃ σ', freeKeys (keysOf fields) σ = .ok σ' ∧
        TakeDone rt σ d (some ∅) (σ'.put d (.obj kind [])) := by
  refine ⟨freeValues_none ?_, ?_⟩
  · intro v hv
    obtain ⟨e, he, rfl⟩ := List.mem_map.mp hv
    exact hvalues e he
  · rw [← put_self hd] at h
    obtain ⟨σ', hkeys, hdone⟩ := freeKeys_done h
    rw [put_self hd] at hdone
    exact ⟨σ', hkeys, hdone⟩

theorem oliveObjClear_done (h : Inv rt none σ) (hd : σ.slots d = some (.obj kind fields))
    (hvalues : ∀ e ∈ fields, σ.live e.2.2 = none) (depth : Nat) :
    ∃ σ', oliveObjClear rt σ depth d = .ok (σ', d) ∧ TakeDone rt σ d (some ∅) σ' := by
  obtain ⟨hfree, σ', hkeys, hdone⟩ := drain_done h hd hvalues (oliveFreeObj rt depth)
  refine ⟨_, ?_, hdone⟩
  unfold oliveObjClear World.fields
  rw [if_neg (active_of h hd).2.2, hd]
  show (freeValues rt (oliveFreeObj rt depth) (valuesOf fields) σ).bind _ = _
  rw [hfree]
  show (freeKeys (keysOf fields) σ).map _ = _
  rw [hkeys]
  rfl

theorem oliveFreeObj_done (h : Inv rt none σ) (hd : σ.slots d = some (.obj kind fields))
    (hvalues : ∀ e ∈ fields, σ.live e.2.2 = none) (depth : Nat) :
    ∃ σ', oliveFreeObj rt (depth + 1) σ d = .ok σ' ∧ TakeDone rt σ d none σ' := by
  obtain ⟨hfree, σ', hkeys, hdone⟩ := drain_done h hd hvalues (oliveFreeObj rt depth)
  have hempty : (σ'.put d (.obj kind [])).slots d = some (.obj kind []) := Function.update_self ..
  have hnotNone : ¬ IsStr none := fun ⟨_, _, _, he⟩ => nomatch he
  have hrelease : (σ'.put d (.obj kind [])).release d = σ'.release d := by
    unfold World.release World.put World.write
    simp only [Function.update_idem]
  refine ⟨σ'.release d, ?_, hdone.trans ?_⟩
  · unfold oliveFreeObj
    rw [(live_slots_iff h).mpr hd]
    show (freeValues rt (oliveFreeObj rt depth) (valuesOf fields) σ).bind _ = _
    rw [hfree]
    show (freeKeys (keysOf fields) σ).map _ = _
    rw [hkeys]
    rfl
  · rw [← hrelease]
    refine ⟨?_, ?_, ?_⟩
    · refine hdone.inv.write (fun s he => nomatch he) (not_isStr_obj hempty) hnotNone
        (fun b he => nomatch he) (fun b he => nomatch he) (fun kind fields he => nomatch he) ?_
      intro b hb _
      obtain ⟨fields', hd', e, he, -⟩ := hdone.inv.owned d b hb fun he => nomatch he
      rw [hempty] at hd'
      cases hd'
      cases he
    · exact mapAt_write (not_isStr_obj hempty) hnotNone
    · intro x slot hne _ hx
      show Function.update _ _ _ _ = _
      rw [Function.update_of_ne hne, hx]

end Take

section Update

variable {rt : Runtime} {σ : World} {d : Word} {kind : KeyKind} {fields : KeyTable}

/-- A key that an entry has: a copy, or an integer. -/
def EntryKey (σ : World) : KeyKind → Word → Prop
  | .str, k => ∃ a bytes id owner, IsBody a ∧ k = a ||| 3 ∧ σ.slots a = some (.str bytes id owner) ∧
      ∀ b ∈ bytes, b ≠ 0
  | .int, k => PlainInt σ k

theorem EntryKey.str {k : Word} (h : EntryKey σ .str k) : HoldsString σ k ∧
    ∀ bytes, σ.strBytes k = some bytes → ∀ b ∈ bytes, b ≠ 0 := by
  obtain ⟨a, bytes, id, owner, hbody, rfl, hslot, hzero⟩ := h
  have hbytes := strBytes_at hbody hslot
  refine ⟨⟨isTaggedStrKey_tag hbody, bytes, hbytes⟩, ?_⟩
  intro bytes' h'
  rw [hbytes] at h'
  cases h'
  exact hzero

/-- A key is what it was after an assignment to a dictionary. -/
theorem EntryKey.kept {m : Map} {σ' : World} {k : Word} (h : EntryKey σ kind k)
    (hd : ¬ IsStr (σ.slots d)) (hdone : SetDone rt σ d kind m σ') :
    EntryKey σ' kind k ∧ nameOf σ' k = nameOf σ k := by
  cases kind with
  | int =>
    have hplain : PlainInt σ k := h
    refine ⟨hdone.plain rfl k hplain, ?_⟩
    unfold nameOf
    rw [if_neg (by rw [hplain.1]; decide), if_neg (by rw [hplain.1]; decide)]
  | str =>
    obtain ⟨a, bytes, id, owner, hbody, rfl, hslot, hzero⟩ := h
    have hne : a ≠ d := by
      rintro rfl
      exact hd ⟨bytes, id, owner, hslot⟩
    have hslot' := hdone.keeps a _ hne hslot
    refine ⟨⟨a, bytes, id, owner, hbody, rfl, hslot', hzero⟩, ?_⟩
    apply nameOf_congr
    intro _
    rw [strBytes_at hbody hslot, strBytes_at hbody hslot']

def insertAll (σ : World) (entries : List (Word × Word)) (m : Map) : Map :=
  entries.foldl (fun m e => m.insert (nameOf σ e.1) e.2) m

theorem SetDone.trans {σ₁ σ₂ : World} {m m' : Map} (h : SetDone rt σ d kind m σ₁)
    (h' : SetDone rt σ₁ d kind m' σ₂) : SetDone rt σ d kind m' σ₂ where
  inv := h'.inv
  dict := h'.dict
  map := by
    rw [h'.map, h.map, Function.update_idem]
  keeps a slot hne ha := h'.keeps a slot hne (h.keeps a slot hne ha)
  plain hkind w hw := h'.plain hkind w (h.plain hkind w hw)
  literals := h'.literals.trans h.literals

theorem setAll_done {entries : List (Word × Word)} (h : Inv rt none σ)
    (hd : σ.slots d = some (.obj kind fields)) (hplain : kind = .int → PlainKeys σ fields)
    (hentries : ∀ e ∈ entries, EntryKey σ kind e.1) :
    setAll rt d entries σ = .error .outOfMemory ∨
      ∃ σ', setAll rt d entries σ = .ok σ' ∧
        SetDone rt σ d kind (insertAll σ entries (asMap (nameOf σ) fields)) σ' := by
  induction entries generalizing σ fields with
  | nil =>
    refine .inr ⟨σ, rfl, h, ⟨fields, hd, hplain⟩, ?_, fun a slot _ ha => ha, fun _ w hw => hw, rfl⟩
    exact (mapAt_update_self (mapAt_of hd)).symm
  | cons e rest ih =>
    obtain ⟨k, v⟩ := e
    have hkey := hentries (k, v) List.mem_cons_self
    have hready : Ready rt σ d kind fields k := by
      apply ready_of h hd
      · rintro rfl
        exact hkey.str.1
      · rintro rfl
        exact ⟨hkey, hplain rfl⟩
    have hzero : kind = .str → ∀ bytes, σ.strBytes k = some bytes → ∀ b ∈ bytes, b ≠ 0 := by
      rintro rfl
      exact hkey.str.2
    unfold setAll
    rcases oliveObjSet_done h hready hzero v with hfull | ⟨σ₁, hset, hdone⟩
    · left
      rw [hfull]
      rfl
    · rw [hset]
      obtain ⟨fields', hd', hplain'⟩ := hdone.dict
      have hkept := fun e he => EntryKey.kept (hentries e (List.mem_cons_of_mem _ he))
        (not_isStr_obj hd) hdone
      have hnow : asMap (nameOf σ₁) fields' = (asMap (nameOf σ) fields).insert (nameOf σ k) v := by
        have hmap := congrFun hdone.map d
        rw [mapAt_of hd', Function.update_self] at hmap
        exact Option.some.inj hmap
      have hall : insertAll σ₁ rest (asMap (nameOf σ₁) fields') =
          insertAll σ ((k, v) :: rest) (asMap (nameOf σ) fields) := by
        rw [hnow]
        show rest.foldl _ _ = rest.foldl _ _
        exact List.foldl_ext _ _ _ fun m e he => by rw [(hkept e he).2]
      rcases ih hdone.inv hd' hplain' fun e he => (hkept e he).1 with hfull | ⟨σ', hrest, hdone'⟩
      · exact .inl hfull
      · right
        refine ⟨σ', hrest, ?_⟩
        rw [hall] at hdone'
        exact hdone.trans hdone'

/-- The entries of one dictionary, inserted in the map of another: its union with it. -/
theorem insertAll_union {m : Map} (h : (names (nameOf σ) fields).Nodup) :
    insertAll σ (fields.map (·.2)) m = asMap (nameOf σ) fields ∪ m := by
  induction fields generalizing m with
  | nil =>
    rw [asMap_nil, Finmap.empty_union]
    rfl
  | cons e rest ih =>
    obtain ⟨hnew, hrest⟩ := List.nodup_cons.mp h
    have hstep : insertAll σ ((e :: rest).map (·.2)) m =
        insertAll σ (rest.map (·.2)) (m.insert (nameOf σ e.2.1) e.2.2) := rfl
    rw [hstep, ih hrest]
    apply Finmap.ext_lookup
    intro n
    by_cases hn : n = nameOf σ e.2.1
    · have hnot : n ∉ asMap (nameOf σ) rest := by
        rw [← Finmap.mem_keys, mem_keys_asMap, hn]
        exact hnew
      have hin : n ∈ asMap (nameOf σ) (e :: rest) := by
        rw [← Finmap.mem_keys, mem_keys_asMap, hn]
        exact List.mem_cons_self
      rw [Finmap.lookup_union_right hnot, Finmap.lookup_union_left hin, hn, Finmap.lookup_insert,
        lookup_asMap_cons, if_pos rfl]
    · have hcons : (asMap (nameOf σ) (e :: rest)).lookup n = (asMap (nameOf σ) rest).lookup n := by
        rw [lookup_asMap_cons, if_neg (Ne.symm hn)]
      by_cases hin : n ∈ asMap (nameOf σ) rest
      · have hin' : n ∈ asMap (nameOf σ) (e :: rest) := by
          rw [← Finmap.lookup_isSome, hcons, Finmap.lookup_isSome]
          exact hin
        rw [Finmap.lookup_union_left hin, Finmap.lookup_union_left hin', hcons]
      · have hin' : n ∉ asMap (nameOf σ) (e :: rest) := by
          rw [← Finmap.lookup_isSome, hcons, Finmap.lookup_isSome]
          exact hin
        rw [Finmap.lookup_union_right hin, Finmap.lookup_union_right hin',
          Finmap.lookup_insert_of_ne _ hn]

end Update

end Dicts

end Olive
