import Olive.HashTable

/-! Hash sets as hash tables without values, beside a list of their elements. -/

namespace HashTable

variable {K H : Type}

/-- The elements of a hash set, each with its hash. -/
abbrev KeySet (K H : Type) := Table K Unit H

section Operations

variable [DecidableEq H] (hash : K → Option H) (eq : K → K → Option Bool)

def contains (keys : KeySet K H) (key : K) : Option Bool := do
  let entry ← lookup hash eq keys key
  some entry.isSome

/-- An equal key stays; the flag says whether the key is new. -/
def insertKey (keys : KeySet K H) (key : K) : Option (KeySet K H × Bool) := do
  if ← contains hash eq keys key then some (keys, false)
  else
    let keys ← insert hash eq keys key ()
    some (keys, true)

def erase (x : H) (key : K) : KeySet K H → Option (KeySet K H × Bool)
  | [] => some ([], false)
  | e :: rest => do
    if ← meets eq x key e then some (rest, true)
    else
      let r ← erase x key rest
      some (e :: r.1, r.2)

/-- The flag says whether there was an equal key. -/
def removeKey (keys : KeySet K H) (key : K) : Option (KeySet K H × Bool) := do
  erase eq (← hash key) key keys

end Operations

/-- The place of the first element that is equal to `key`, in a list of elements. -/
def position (eq : K → K → Option Bool) (key : K) : List K → Option (Option Nat)
  | [] => some none
  | x :: rest => do
    if ← eq x key then some (some 0)
    else
      let i ← position eq key rest
      some (i.map (· + 1))

/-- Some element is the key. -/
def Has (same : K → K → Bool) (elems : List K) (key : K) : Prop := ∃ e ∈ elems, same key e = true

/-- No two elements are the same. -/
def Apart (same : K → K → Bool) (elems : List K) : Prop :=
  elems.Pairwise fun a b => same a b = false

/-- The keys of a hash set. -/
def keysOf (keys : KeySet K H) : List K := keys.map fun e => e.2.1

section Laws

variable {hash : K → Option H} {eq : K → K → Option Bool} {S : K → Prop} {same : K → K → Bool}
  {code : K → H} {keys : KeySet K H} {key k : K} {elems : List K}

theorem has_nil : ¬ Has same [] key := by
  rintro ⟨e, he, -⟩
  exact absurd he List.not_mem_nil

theorem has_cons {e : K} : Has same (e :: elems) key ↔ same key e = true ∨ Has same elems key := by
  simp only [Has, List.mem_cons, exists_eq_or_imp]

theorem has_append {elems' : List K} :
    Has same (elems ++ elems') key ↔ Has same elems key ∨ Has same elems' key := by
  simp only [Has, List.mem_append, or_and_right, exists_or]

theorem found_isSome_iff : (found (same key) keys).isSome = true ↔ Has same (keysOf keys) key := by
  simp only [found, Option.isSome_map, List.find?_isSome, Has, keysOf, List.mem_map]
  constructor
  · rintro ⟨e, he, hs⟩
    exact ⟨_, ⟨e, he, rfl⟩, hs⟩
  · rintro ⟨_, ⟨e, he, rfl⟩, hs⟩
    exact ⟨e, he, hs⟩

@[simp] theorem keysOf_append {keys' : KeySet K H} :
    keysOf (keys ++ keys') = keysOf keys ++ keysOf keys' := List.map_append

theorem Holds.mem (h : Holds S code keys) : ∀ k ∈ keysOf keys, S k := by
  intro k hk
  obtain ⟨e, he, rfl⟩ := List.mem_map.mp hk
  exact (h e he).1

/-- What is the same as an element that the set has is in the set. -/
theorem Lawful.has_of_same (hl : Lawful hash eq S same code) (helems : ∀ e ∈ elems, S e)
    (hkey : S key) (hk : S k) (hs : same k key = true) (h : Has same elems key) : Has same elems k := by
  obtain ⟨e, he, hse⟩ := h
  exact ⟨e, he, hl.trans k key e hk hkey (helems e he) hs hse⟩

/-- The place of the element that a key is. -/
theorem Lawful.position_iff (hl : Lawful hash eq S same code) (helems : ∀ e ∈ elems, S e)
    (hkey : S key) :
    ∃ i, position eq key elems = some i ∧ (i.isSome = true ↔ Has same elems key) ∧
      ∀ n, i = some n → ∃ e, elems[n]? = some e ∧ same key e = true := by
  induction elems with
  | nil => exact ⟨none, rfl, by simp [has_nil], fun n hn => nomatch hn⟩
  | cons e rest ih =>
    have he := helems e List.mem_cons_self
    obtain ⟨i, hi, hiff, hat⟩ := ih fun e he => helems e (List.mem_cons_of_mem _ he)
    have heq := hl.eq e key he hkey
    cases hs : same e key with
    | true =>
      have hsym := hl.symm e key he hkey hs
      rw [hs] at heq
      refine ⟨some 0, by rw [position, heq]; rfl, ?_, ?_⟩
      · exact ⟨fun _ => ⟨e, List.mem_cons_self, hsym⟩, fun _ => rfl⟩
      · intro n hn
        rw [← Option.some.inj hn]
        exact ⟨e, rfl, hsym⟩
    | false =>
      rw [hs] at heq
      have hne : ¬ same key e = true := by
        intro h
        have h' := hl.symm key e hkey he h
        rw [hs] at h'
        exact Bool.false_ne_true h'
      refine ⟨i.map (· + 1), ?_, ?_, ?_⟩
      · rw [position, heq]
        change (position eq key rest).bind _ = _
        rw [hi]
        rfl
      · rw [Option.isSome_map, hiff, has_cons]
        exact ⟨.inr, fun h => h.resolve_left hne⟩
      · intro n hn
        obtain ⟨m, hm, rfl⟩ := Option.map_eq_some_iff.mp hn
        exact hat m hm

theorem Lawful.apart_append (hl : Lawful hash eq S same code) (helems : ∀ e ∈ elems, S e)
    (hkey : S key) (hapart : Apart same elems) (hnew : ¬ Has same elems key) :
    Apart same (elems ++ [key]) := by
  refine List.pairwise_append.mpr ⟨hapart, List.pairwise_singleton _ _, ?_⟩
  intro e he x hx
  rw [List.mem_singleton.mp hx, ← Bool.not_eq_true]
  exact fun hs => hnew ⟨e, he, hl.symm e key (helems e he) hkey hs⟩

/-- Where elements are apart, taking out the one that is the key takes out the key. -/
theorem Lawful.has_without (hl : Lawful hash eq S same code) {before after : List K} {e : K}
    (helems : ∀ x ∈ before ++ e :: after, S x) (hkey : S key) (hapart : Apart same (before ++ e :: after))
    (he : same key e = true) (hk : S k) :
    Has same (before ++ after) k ↔ Has same (before ++ e :: after) k ∧ same k key = false := by
  have heS : S e := helems e (List.mem_append_right _ List.mem_cons_self)
  obtain ⟨-, hright, hcross⟩ := List.pairwise_append.mp hapart
  have hleft := (List.pairwise_cons.mp hright).1
  -- an element that is the key would be the same as `e`
  have hother : ∀ x ∈ before ++ after, same k x = true → same k key = false := by
    intro x hx hsx
    have hxS : S x := by
      rcases List.mem_append.mp hx with hx | hx
      · exact helems x (List.mem_append_left _ hx)
      · exact helems x (List.mem_append_right _ (List.mem_cons_of_mem _ hx))
    rw [← Bool.not_eq_true]
    intro hsk
    have hex : same x e = true := hl.trans x k e hxS hk heS (hl.symm k x hk hxS hsx)
      (hl.trans k key e hk hkey heS hsk he)
    rcases List.mem_append.mp hx with hx | hx
    · rw [hcross x hx e List.mem_cons_self] at hex
      exact Bool.false_ne_true hex
    · have hxe := hl.symm x e hxS heS hex
      rw [hleft x hx] at hxe
      exact Bool.false_ne_true hxe
  rw [has_append, has_append, has_cons]
  constructor
  · intro h
    refine ⟨h.imp_right .inr, ?_⟩
    obtain ⟨x, hx, hsx⟩ := has_append.mpr h
    exact hother x hx hsx
  · rintro ⟨hbefore | hse | hafter, hne⟩
    · exact .inl hbefore
    · have hsk := hl.trans k e key hk heS hkey hse (hl.symm key e hkey heS he)
      rw [hne] at hsk
      exact absurd hsk Bool.false_ne_true
    · exact .inr hafter

variable [DecidableEq H]

theorem Lawful.contains_iff (hl : Lawful hash eq S same code) (hh : Holds S code keys) (hkey : S key) :
    ∃ r, contains hash eq keys key = some r ∧ (r = true ↔ Has same (keysOf keys) key) := by
  refine ⟨(found (same key) keys).isSome, ?_, found_isSome_iff⟩
  rw [contains, hl.lookup hh hkey]
  rfl

/-- A new key goes to the end. -/
theorem Lawful.put_new (hl : Lawful hash eq S same code) (hh : Holds S code keys) (hkey : S key)
    (hnew : ¬ Has same (keysOf keys) key) :
    HashTable.put eq (code key) key () keys = some (keys ++ [(code key, key, ())]) := by
  induction keys with
  | nil => rfl
  | cons e rest ih =>
    obtain ⟨he, hcode⟩ := hh e List.mem_cons_self
    have hmeets := hl.meets hkey he hcode
    have hs : same key e.2.1 = false := by
      rw [← Bool.not_eq_true]
      exact fun hs => hnew ⟨_, List.mem_cons_self, hs⟩
    rw [hs] at hmeets
    have hrest := ih (fun e he => hh e (List.mem_cons_of_mem _ he))
      fun h => hnew (has_cons.mpr (.inr h))
    rw [HashTable.put, hmeets]
    change (HashTable.put eq (code key) key () rest).bind _ = _
    rw [hrest]
    rfl

theorem Lawful.inserts (hl : Lawful hash eq S same code) (hh : Holds S code keys) (hkey : S key) :
    (Has same (keysOf keys) key → insertKey hash eq keys key = some (keys, false)) ∧
      (¬ Has same (keysOf keys) key →
        insertKey hash eq keys key = some (keys ++ [(code key, key, ())], true)) := by
  obtain ⟨r, hr, hiff⟩ := hl.contains_iff hh hkey
  constructor
  · intro hhas
    obtain rfl := hiff.mpr hhas
    rw [insertKey, hr]
    rfl
  · intro hnew
    have hrfalse : r = false := by
      rw [← Bool.not_eq_true]
      exact fun h => hnew (hiff.mp h)
    rw [insertKey, hr, hrfalse]
    change (HashTable.insert hash eq keys key ()).bind _ = _
    rw [HashTable.insert, hl.hash key hkey]
    change (HashTable.put eq (code key) key () keys).bind _ = _
    rw [hl.put_new hh hkey hnew]
    rfl

theorem Lawful.erases (hl : Lawful hash eq S same code) (hh : Holds S code keys) (hkey : S key) :
    ¬ Has same (keysOf keys) key ∧ erase eq (code key) key keys = some (keys, false) ∨
      ∃ before e after, keys = before ++ e :: after ∧ same key e.2.1 = true ∧
        erase eq (code key) key keys = some (before ++ after, true) := by
  induction keys with
  | nil => exact .inl ⟨has_nil, rfl⟩
  | cons e rest ih =>
    obtain ⟨he, hcode⟩ := hh e List.mem_cons_self
    have hmeets := hl.meets hkey he hcode
    cases hs : same key e.2.1 with
    | true =>
      rw [hs] at hmeets
      exact .inr ⟨[], e, rest, rfl, hs, by rw [erase, hmeets]; rfl⟩
    | false =>
      rw [hs] at hmeets
      have hstep : erase eq (code key) key (e :: rest) =
          (erase eq (code key) key rest).bind fun r => some (e :: r.1, r.2) := by
        rw [erase, hmeets]
        rfl
      rw [hstep]
      rcases ih fun e he => hh e (List.mem_cons_of_mem _ he) with ⟨hnot, hrest⟩ | ⟨xs, e', ys, rfl, hs', hrest⟩
      · refine .inl ⟨fun h => ?_, by rw [hrest]; rfl⟩
        rcases has_cons.mp h with hse | h
        · rw [hs] at hse
          exact Bool.false_ne_true hse
        · exact hnot h
      · exact .inr ⟨e :: xs, e', ys, rfl, hs', by rw [hrest]; rfl⟩

end Laws

end HashTable
