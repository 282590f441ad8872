import Mathlib.Data.Finmap
import Olive.HashTable

/-! A table whose keys are compared by their names is a finite map from the names. -/

namespace HashTable

variable {K V H A : Type}

/-- On the keys in `S`, the hash and the comparison see the name of a key and nothing else. -/
structure Named (hash : K → Option H) (eq : K → K → Option Bool) [DecidableEq A] (S : K → Prop)
    (name : K → A) (code : A → H) : Prop where
  hash : ∀ a, S a → hash a = some (code (name a))
  eq : ∀ a b, S a → S b → eq a b = some (decide (name a = name b))

/-- The names of the keys. -/
def names (name : K → A) (table : Table K V H) : List A :=
  table.map fun e => name e.2.1

/-- The entries that stand for a finite map: with their hashes, and no name twice. -/
structure Represents (S : K → Prop) (name : K → A) (code : A → H) (table : Table K V H) : Prop where
  holds : ∀ e ∈ table, S e.2.1 ∧ e.1 = code (name e.2.1)
  nodup : (names name table).Nodup

def namedEntries (name : K → A) (table : Table K V H) : List (Sigma fun _ : A => V) :=
  table.map fun e => ⟨name e.2.1, e.2.2⟩

/-- The finite map. -/
def asMap [DecidableEq A] (name : K → A) (table : Table K V H) : Finmap fun _ : A => V :=
  (namedEntries name table).toFinmap

variable {name : K → A} {before after table : Table K V H} {e : H × K × V} {a : A}

theorem names_append : names name (before ++ after) = names name before ++ names name after :=
  List.map_append

theorem names_cons : names name (e :: after) = name e.2.1 :: names name after :=
  rfl

/-- The entry of a name. -/
theorem exists_split (h : a ∈ names name table) : ∃ before e after, table = before ++ e :: after ∧
    name e.2.1 = a := by
  obtain ⟨e, he, rfl⟩ := List.mem_map.mp h
  obtain ⟨before, after, rfl⟩ := List.append_of_mem he
  exact ⟨before, e, after, rfl, rfl⟩

theorem split_names (h : (names name (before ++ e :: after)).Nodup) :
    name e.2.1 ∉ names name before ∧ name e.2.1 ∉ names name after ∧
      (names name (before ++ after)).Nodup := by
  rw [names_append, names_cons] at h
  have hmid := List.nodup_middle.mp h
  rw [List.nodup_cons, List.mem_append, not_or] at hmid
  rw [names_append]
  exact ⟨hmid.1.1, hmid.1.2, hmid.2⟩

section Maps

variable [DecidableEq A]

theorem lookup_asMap : (asMap name table).lookup a = (namedEntries name table).dlookup a :=
  Finmap.dlookup_list_toFinmap a _

theorem lookup_asMap_eq_none : (asMap name table).lookup a = none ↔ a ∉ names name table := by
  rw [lookup_asMap, List.dlookup_eq_none]
  have hkeys : (namedEntries name table).keys = names name table := by
    unfold namedEntries names List.keys
    rw [List.map_map]
    rfl
  rw [hkeys]

theorem lookup_asMap_append (a : A) : (asMap name (before ++ after)).lookup a =
    ((asMap name before).lookup a).or ((asMap name after).lookup a) := by
  simp only [lookup_asMap]
  unfold namedEntries
  rw [List.map_append, List.dlookup_append]

theorem lookup_asMap_cons (a : A) : (asMap name (e :: after)).lookup a =
    if name e.2.1 = a then some e.2.2 else (asMap name after).lookup a := by
  simp only [lookup_asMap]
  unfold namedEntries
  rw [List.map_cons]
  split_ifs with h
  · subst h
    exact List.dlookup_cons_eq _ _ _
  · exact List.dlookup_cons_ne _ _ (Ne.symm h)

theorem asMap_nil : asMap name ([] : Table K V H) = ∅ :=
  Finmap.toFinmap_nil

theorem lookup_asMap_split (h : (names name (before ++ e :: after)).Nodup) :
    (asMap name (before ++ e :: after)).lookup (name e.2.1) = some e.2.2 := by
  rw [lookup_asMap_append, lookup_asMap_cons, if_pos rfl,
    lookup_asMap_eq_none.mpr (split_names h).1]
  rfl

/-- A new value in place of the old one. -/
theorem asMap_assign {x : H} {key : K} {value : V} (h : (names name (before ++ e :: after)).Nodup)
    (hkey : name key = name e.2.1) : asMap name (before ++ (x, key, value) :: after) =
      (asMap name (before ++ e :: after)).insert (name key) value := by
  apply Finmap.ext_lookup
  intro a
  by_cases ha : a = name key
  · rw [ha, Finmap.lookup_insert, lookup_asMap_append, lookup_asMap_cons, if_pos rfl, hkey,
      lookup_asMap_eq_none.mpr (split_names h).1]
    rfl
  · have hne : name key ≠ a := Ne.symm ha
    rw [Finmap.lookup_insert_of_ne _ ha, lookup_asMap_append, lookup_asMap_append,
      lookup_asMap_cons, lookup_asMap_cons, if_neg hne, if_neg (hkey ▸ hne)]

theorem asMap_extend {x : H} {key : K} {value : V} (h : name key ∉ names name table) :
    asMap name (table ++ [(x, key, value)]) = (asMap name table).insert (name key) value := by
  apply Finmap.ext_lookup
  intro a
  by_cases ha : a = name key
  · rw [ha, Finmap.lookup_insert, lookup_asMap_append, lookup_asMap_cons, if_pos rfl,
      lookup_asMap_eq_none.mpr h]
    rfl
  · rw [Finmap.lookup_insert_of_ne _ ha, lookup_asMap_append, lookup_asMap_cons,
      if_neg (Ne.symm ha), asMap_nil, Finmap.lookup_empty, Option.or_none]

theorem asMap_without (h : (names name (before ++ e :: after)).Nodup) :
    asMap name (before ++ after) = (asMap name (before ++ e :: after)).erase (name e.2.1) := by
  obtain ⟨hbefore, hafter, -⟩ := split_names h
  apply Finmap.ext_lookup
  intro a
  by_cases ha : a = name e.2.1
  · rw [ha, Finmap.lookup_erase, lookup_asMap_append, lookup_asMap_eq_none.mpr hbefore,
      lookup_asMap_eq_none.mpr hafter]
    rfl
  · rw [Finmap.lookup_erase_ne ha, lookup_asMap_append, lookup_asMap_append, lookup_asMap_cons,
      if_neg (Ne.symm ha)]

theorem mem_keys_asMap : a ∈ (asMap name table).keys ↔ a ∈ names name table := by
  rw [Finmap.mem_keys, ← Finmap.lookup_isSome, Option.isSome_iff_ne_none, Ne, lookup_asMap_eq_none,
    not_not]

theorem card_keys_asMap (h : (names name table).Nodup) :
    (asMap name table).keys.card = table.length := by
  have hkeys : (asMap name table).keys = (names name table).toFinset := by
    ext a
    rw [mem_keys_asMap, List.mem_toFinset]
  rw [hkeys, List.toFinset_card_of_nodup h]
  exact List.length_map _

/-- A map does not see how keys of the same name differ. -/
theorem asMap_congr {name' : K → A} (h : ∀ e ∈ table, name' e.2.1 = name e.2.1) :
    asMap name' table = asMap name table := by
  unfold asMap namedEntries
  congr 1
  apply List.map_congr_left
  intro e he
  rw [h e he]

end Maps

section Operations

variable [DecidableEq A] [DecidableEq H] {hash : K → Option H} {eq : K → K → Option Bool}
  {S : K → Prop} {code : A → H} {key : K}

theorem Named.meets (hn : Named hash eq S name code) (hkey : S key) (he : S e.2.1)
    (hcode : e.1 = code (name e.2.1)) :
    meets eq (code (name key)) key e = some (decide (name key = name e.2.1)) := by
  unfold HashTable.meets
  split_ifs with h
  · exact hn.eq key e.2.1 hkey he
  · rw [decide_eq_false]
    intro hname
    rw [hcode, hname] at h
    exact h rfl

theorem Named.lookup (hn : Named hash eq S name code) (ht : Represents S name code table)
    (hkey : S key) : lookup hash eq table key = some ((asMap name table).lookup (name key)) := by
  unfold HashTable.lookup
  rw [hn.hash key hkey]
  obtain ⟨hholds, -⟩ := ht
  show get eq (code (name key)) key table = _
  induction table with
  | nil =>
    rw [asMap_nil, Finmap.lookup_empty]
    rfl
  | cons e rest ih =>
    obtain ⟨he, hcode⟩ := hholds e List.mem_cons_self
    rw [HashTable.get, hn.meets hkey he hcode, lookup_asMap_cons]
    by_cases hname : name key = name e.2.1
    · rw [decide_eq_true hname, if_pos hname.symm]
      rfl
    · rw [decide_eq_false hname, if_neg (Ne.symm hname)]
      exact ih fun e he => hholds e (List.mem_cons_of_mem _ he)

/-- An insertion where the name is held keeps the key that is there. -/
theorem Named.insert_held (hn : Named hash eq S name code)
    (ht : Represents S name code (before ++ e :: after)) (hkey : S key)
    (hname : name e.2.1 = name key) (value : V) :
    insert hash eq (before ++ e :: after) key value =
      some (before ++ (e.1, e.2.1, value) :: after) := by
  unfold HashTable.insert
  rw [hn.hash key hkey]
  show put eq (code (name key)) key value _ = _
  obtain ⟨hholds, hnodup⟩ := ht
  have hbefore := (split_names hnodup).1
  induction before with
  | nil =>
    obtain ⟨he, hcode⟩ := hholds e List.mem_cons_self
    rw [List.nil_append, HashTable.put, hn.meets hkey he hcode, decide_eq_true hname.symm]
    rfl
  | cons b before ih =>
    obtain ⟨hb, hcode⟩ := hholds b List.mem_cons_self
    rw [names_cons, List.mem_cons, not_or] at hbefore
    have hne : name key ≠ name b.2.1 := fun h => hbefore.1 (hname.trans h)
    have hrest := ih (fun e he => hholds e (List.mem_cons_of_mem _ he))
      (List.nodup_cons.mp hnodup).2 hbefore.2
    rw [List.cons_append, HashTable.put, hn.meets hkey hb hcode, decide_eq_false hne, hrest]
    rfl

theorem Named.insert_new (hn : Named hash eq S name code) (ht : Represents S name code table)
    (hkey : S key) (hnew : name key ∉ names name table) (value : V) :
    insert hash eq table key value = some (table ++ [(code (name key), key, value)]) := by
  unfold HashTable.insert
  rw [hn.hash key hkey]
  show put eq (code (name key)) key value _ = _
  obtain ⟨hholds, -⟩ := ht
  induction table with
  | nil => rfl
  | cons e rest ih =>
    obtain ⟨he, hcode⟩ := hholds e List.mem_cons_self
    rw [names_cons, List.mem_cons, not_or] at hnew
    have hrest := ih hnew.2 fun e he => hholds e (List.mem_cons_of_mem _ he)
    rw [HashTable.put, hn.meets hkey he hcode, decide_eq_false hnew.1, hrest]
    rfl

theorem Named.removeEntry_held (hn : Named hash eq S name code)
    (ht : Represents S name code (before ++ e :: after)) (hkey : S key)
    (hname : name e.2.1 = name key) :
    removeEntry hash eq (before ++ e :: after) key = some (some e.2, before ++ after) := by
  unfold HashTable.removeEntry
  rw [hn.hash key hkey]
  show remove eq (code (name key)) key _ = _
  obtain ⟨hholds, hnodup⟩ := ht
  have hbefore := (split_names hnodup).1
  induction before with
  | nil =>
    obtain ⟨he, hcode⟩ := hholds e List.mem_cons_self
    rw [List.nil_append, HashTable.remove, hn.meets hkey he hcode, decide_eq_true hname.symm]
    rfl
  | cons b before ih =>
    obtain ⟨hb, hcode⟩ := hholds b List.mem_cons_self
    rw [names_cons, List.mem_cons, not_or] at hbefore
    have hne : name key ≠ name b.2.1 := fun h => hbefore.1 (hname.trans h)
    have hrest := ih (fun e he => hholds e (List.mem_cons_of_mem _ he))
      (List.nodup_cons.mp hnodup).2 hbefore.2
    rw [List.cons_append, HashTable.remove, hn.meets hkey hb hcode, decide_eq_false hne, hrest]
    rfl

theorem Named.removeEntry_new (hn : Named hash eq S name code) (ht : Represents S name code table)
    (hkey : S key) (hnew : name key ∉ names name table) :
    removeEntry hash eq table key = some (none, table) := by
  unfold HashTable.removeEntry
  rw [hn.hash key hkey]
  show remove eq (code (name key)) key _ = _
  obtain ⟨hholds, -⟩ := ht
  induction table with
  | nil => rfl
  | cons e rest ih =>
    obtain ⟨he, hcode⟩ := hholds e List.mem_cons_self
    rw [names_cons, List.mem_cons, not_or] at hnew
    have hrest := ih hnew.2 fun e he => hholds e (List.mem_cons_of_mem _ he)
    rw [HashTable.remove, hn.meets hkey he hcode, decide_eq_false hnew.1, hrest]
    rfl

end Operations

end HashTable
