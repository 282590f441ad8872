import Mathlib.Data.List.Basic

/-! Tables that compare the key they look for with the keys that have its hash. -/

namespace HashTable

variable {K V H : Type} [DecidableEq H]

/-- The entries, each with the hash of its key. -/
abbrev Table (K V H : Type) := List (H × K × V)

section Operations

variable (hash : K → Option H) (eq : K → K → Option Bool)

/-- Keys with other hashes are not compared. -/
def meets (x : H) (key : K) (e : H × K × V) : Option Bool :=
  if e.1 = x then eq key e.2.1 else some false

/-- An equal key stays, with the new value. -/
def put (x : H) (key : K) (value : V) : Table K V H → Option (Table K V H)
  | [] => some [(x, key, value)]
  | e :: rest => do
    if ← meets eq x key e then some ((e.1, e.2.1, value) :: rest)
    else
      let rest ← put x key value rest
      some (e :: rest)

def get (x : H) (key : K) : Table K V H → Option (Option V)
  | [] => some none
  | e :: rest => do
    if ← meets eq x key e then some (some e.2.2) else get x key rest

def insert (table : Table K V H) (key : K) (value : V) : Option (Table K V H) := do
  put eq (← hash key) key value table

def lookup (table : Table K V H) (key : K) : Option (Option V) := do get eq (← hash key) key table

/-- The entry that is taken out, and the others. -/
def remove (x : H) (key : K) : Table K V H → Option (Option (K × V) × Table K V H)
  | [] => some (none, [])
  | e :: rest => do
    if ← meets eq x key e then some (some e.2, rest)
    else
      let (entry, rest) ← remove x key rest
      some (entry, e :: rest)

def removeEntry (table : Table K V H) (key : K) : Option (Option (K × V) × Table K V H) := do
  remove eq (← hash key) key table

def insertAll : List (K × V) → Table K V H → Option (Table K V H)
  | [], table => some table
  | e :: rest, table => do insertAll rest (← insert hash eq table e.1 e.2)

end Operations

/-- The value that came last under a key that `same` accepts. -/
def latest (same : K → Bool) : List (K × V) → Option V
  | [] => none
  | e :: rest => (latest same rest).or (if same e.1 then some e.2 else none)

theorem latest_isSome {same : K → Bool} {items : List (K × V)} {e : K × V} (he : e ∈ items)
    (hs : same e.1 = true) : (latest same items).isSome := by
  induction items with
  | nil => cases he
  | cons e' rest ih =>
    rw [latest, Option.isSome_or]
    rcases List.mem_cons.mp he with rfl | he
    · simp [hs]
    · simp [ih he]

/-- On the keys in `S`, `eq` is the equality `same`, and the hash respects it. -/
structure Lawful (hash : K → Option H) (eq : K → K → Option Bool) (S : K → Prop)
    (same : K → K → Bool) (code : K → H) : Prop where
  hash : ∀ a, S a → hash a = some (code a)
  eq : ∀ a b, S a → S b → eq a b = some (same a b)
  respects : ∀ a b, S a → S b → same a b = true → code a = code b
  symm : ∀ a b, S a → S b → same a b = true → same b a = true
  trans : ∀ a b c, S a → S b → S c → same a b = true → same b c = true → same a c = true

variable {hash : K → Option H} {eq : K → K → Option Bool} {S : K → Prop} {same : K → K → Bool}
  {code : K → H} {table : Table K V H} {key : K}

/-- The keys of a table, and their hashes. -/
def Holds (S : K → Prop) (code : K → H) (table : Table K V H) : Prop :=
  ∀ e ∈ table, S e.2.1 ∧ e.1 = code e.2.1

/-- What a table says about a key. -/
def found (same : K → Bool) (table : Table K V H) : Option V :=
  (table.find? fun e => same e.2.1).map (·.2.2)

theorem Lawful.meets (hl : Lawful hash eq S same code) {e : H × K × V} (hkey : S key)
    (he : S e.2.1) (hcode : e.1 = code e.2.1) :
    meets eq (code key) key e = some (same key e.2.1) := by
  unfold HashTable.meets
  split
  next => exact hl.eq key e.2.1 hkey he
  next hne =>
    rw [Eq.comm, Option.some.injEq, ← Bool.not_eq_true]
    exact fun hsame => hne (hcode.trans (hl.respects key e.2.1 hkey he hsame).symm)

theorem Lawful.get (hl : Lawful hash eq S same code) (ht : Holds S code table) (hkey : S key) :
    get eq (code key) key table = some (found (same key) table) := by
  induction table with
  | nil => rfl
  | cons e rest ih =>
    obtain ⟨he, hcode⟩ := ht e (by simp)
    rw [HashTable.get, hl.meets hkey he hcode, found, List.find?_cons]
    cases hs : same key e.2.1 with
    | true => simp
    | false => simpa [found] using ih fun e he => ht e (List.mem_cons_of_mem _ he)

theorem Lawful.put (hl : Lawful hash eq S same code) (value : V)
    (ht : Holds S code table) (hkey : S key) :
    ∃ table', put eq (code key) key value table = some table' ∧ Holds S code table' ∧
      ∀ k, S k → found (same k) table' = if same k key then some value else found (same k) table := by
  induction table with
  | nil =>
    refine ⟨_, rfl, ?_, fun k _ => ?_⟩
    · intro e he
      rw [List.mem_singleton.mp he]
      exact ⟨hkey, rfl⟩
    · cases hs : same k key with
      | true => simp [found, hs]
      | false => simp [found, hs]
  | cons e rest ih =>
    obtain ⟨he, hcode⟩ := ht e (by simp)
    have hrest : Holds S code rest := fun e he => ht e (List.mem_cons_of_mem _ he)
    cases hs : same key e.2.1 with
    | true =>
      refine ⟨(e.1, e.2.1, value) :: rest, ?_, ?_, fun k hk => ?_⟩
      · simp [HashTable.put, hl.meets hkey he hcode, hs]
      · exact List.forall_mem_cons.mpr ⟨⟨he, hcode⟩, hrest⟩
      · -- for any key, the one in the table and the new one are the same
        have hiff : same k e.2.1 = same k key := by
          rw [Bool.eq_iff_iff]
          exact ⟨fun h => hl.trans _ _ _ hk he hkey h (hl.symm _ _ hkey he hs),
            fun h => hl.trans _ _ _ hk hkey he h hs⟩
        cases hsk : same k key with
        | true => simp [found, hiff, hsk]
        | false => simp [found, hiff, hsk]
    | false =>
      obtain ⟨rest', hput, hholds, hfound⟩ := ih hrest
      refine ⟨e :: rest', ?_, ?_, fun k hk => ?_⟩
      · simp [HashTable.put, hl.meets hkey he hcode, hs, hput]
      · exact List.forall_mem_cons.mpr ⟨⟨he, hcode⟩, hholds⟩
      · have hk' := hfound k hk
        cases hse : same k e.2.1 with
        | true =>
          have hsk : same k key = false := by
            rw [← Bool.not_eq_true]
            intro h
            have := hl.trans _ _ _ hkey hk he (hl.symm _ _ hk hkey h) hse
            simp [this] at hs
          simp [found, hse, hsk]
        | false => simpa [found, hse] using hk'

theorem Lawful.insert (hl : Lawful hash eq S same code) (value : V)
    (ht : Holds S code table) (hkey : S key) :
    ∃ table', insert hash eq table key value = some table' ∧ Holds S code table' ∧
      ∀ k, S k → found (same k) table' = if same k key then some value else found (same k) table := by
  obtain ⟨table', hput, hrest⟩ := hl.put value ht hkey
  exact ⟨table', by simp [HashTable.insert, hl.hash key hkey, hput], hrest⟩

theorem Lawful.lookup (hl : Lawful hash eq S same code) (ht : Holds S code table) (hkey : S key) :
    lookup hash eq table key = some (found (same key) table) := by
  simp [HashTable.lookup, hl.hash key hkey, hl.get ht hkey]

theorem Lawful.insertAll_found (hl : Lawful hash eq S same code) {items : List (K × V)}
    (ht : Holds S code table) (hitems : ∀ e ∈ items, S e.1) :
    ∃ table', insertAll hash eq items table = some table' ∧ Holds S code table' ∧
      ∀ k, S k → found (same k) table' = (latest (same k) items).or (found (same k) table) := by
  induction items generalizing table with
  | nil => exact ⟨table, rfl, ht, fun k _ => by simp [latest]⟩
  | cons e rest ih =>
    obtain ⟨table₁, hinsert, ht₁, hfound₁⟩ := hl.insert e.2 ht (hitems e (by simp))
    obtain ⟨table', hall, ht', hfound⟩ := ih ht₁ fun e he => hitems e (List.mem_cons_of_mem _ he)
    refine ⟨table', by simp [insertAll, hinsert, hall], ht', fun k hk => ?_⟩
    rw [hfound k hk, hfound₁ k hk, latest, Option.or_assoc]
    cases hs : same k e.1 with
    | true => simp
    | false => simp

/-- After any insertions, a key finds the value that came last under a key equal to it. -/
theorem Lawful.lookup_insertAll (hl : Lawful hash eq S same code) {items : List (K × V)}
    (hitems : ∀ e ∈ items, S e.1) (hkey : S key) :
    ∃ table, insertAll hash eq items [] = some table ∧
      HashTable.lookup hash eq table key = some (latest (same key) items) := by
  obtain ⟨table, hall, ht, hfound⟩ := hl.insertAll_found (List.forall_mem_nil _) hitems
  refine ⟨table, hall, ?_⟩
  rw [hl.lookup ht hkey, hfound key hkey]
  simp [found]

end HashTable
