import Mathlib.Data.Finset.Card
import Mathlib.Logic.Equiv.Basic
import Olive.Buffers

/-! Who owns a block of bytes: a buffer, an object of Python, or a vector that is on its way from one
header to another. -/

namespace Olive

namespace Buffers

open ByteLists

/-- What an operation holds between two of its steps: a vector, or a reference to an object. -/
inductive Loose where
  | nothing
  | vec (v : Parts)
  | ref (py : Word)

inductive Owner where
  | buffer (buf : Word)
  | object (py : Word)
  | loose
  deriving DecidableEq

def Loose.parts : Loose → Option Parts
  | .vec v => some v
  | _ => none

def Loose.count : Loose → Word → Nat
  | .ref q, p => if q = p then 1 else 0
  | _, _ => 0

def OliveBytes.own (b : OliveBytes) : Option Parts :=
  if b.py = 0 then some b.toParts else none

/-- The block that an owner has. -/
def region (loose : Loose) (σ : Heap) : Owner → Option Parts
  | .buffer buf => (σ.slots buf).bind OliveBytes.own
  | .object py => (σ.objects py).map PyBytes.parts
  | .loose => loose.parts

/-- The block is there and has room for the bytes in use. -/
structure Holds (σ : Heap) (v : Parts) : Prop where
  room : v.len ≤ v.cap
  null : v.ptr = 0 → v.cap = 0
  small : v.cap < 2 ^ 63
  block : 0 < v.cap → ∃ block, σ.memory v.ptr = some block ∧ block.length = v.cap

/-- The references that are counted: foreign ones, one for each buffer that borrows, and a loose one. -/
structure Counted (loose : Loose) (σ : Heap) (py : Word) (o : PyBytes) : Prop where
  notNull : py ≠ 0
  room : 0 < o.parts.cap
  live : 0 < o.refs
  refs : ∃ holders : Finset Word, (∀ buf, buf ∈ holders ↔ ∃ b, σ.slots buf = some b ∧ b.py = py) ∧
    o.refs = o.foreign + holders.card + loose.count py

structure Backed (σ : Heap) (b : OliveBytes) (o : PyBytes) : Prop where
  object : σ.objects b.py = some o
  ptr : b.ptr = o.parts.ptr
  len : b.len = o.parts.len

structure Inv (loose : Loose) (σ : Heap) : Prop where
  holds : ∀ owner v, region loose σ owner = some v → Holds σ v
  apart : ∀ owner owner' v v', region loose σ owner = some v → region loose σ owner' = some v' →
    0 < v.cap → 0 < v'.cap → v.ptr = v'.ptr → owner = owner'
  slots : ∀ buf b, σ.slots buf = some b → buf ≠ 0 ∧ (b.py ≠ 0 → ∃ o, Backed σ b o)
  counted : ∀ py o, σ.objects py = some o → Counted loose σ py o

/-- The bytes of a buffer. -/
def contents (σ : Heap) (buf : Word) : Option (List UInt8) :=
  (σ.slots buf).bind fun b => slice σ b.ptr b.len

/-- The bytes of an object. -/
def payload (σ : Heap) (py : Word) : Option (List UInt8) :=
  (σ.objects py).bind fun o => slice σ o.parts.ptr o.parts.len

/-- What operations on buffers leave of the objects of Python: no new ones, the bytes and the foreign
references of those that stay, and all that are referenced from elsewhere. -/
structure Shared (σ σ' : Heap) : Prop where
  kept : ∀ py o', σ'.objects py = some o' → ∃ o, σ.objects py = some o ∧ o'.foreign = o.foreign ∧
    payload σ' py = payload σ py
  foreign : ∀ py o, σ.objects py = some o → 0 < o.foreign → ∃ o', σ'.objects py = some o'

theorem Shared.refl (σ : Heap) : Shared σ σ :=
  ⟨fun _ o ho => ⟨o, ho, rfl, rfl⟩, fun _ o ho _ => ⟨o, ho⟩⟩

theorem Shared.trans {σ σ₁ σ₂ : Heap} (h : Shared σ σ₁) (h' : Shared σ₁ σ₂) : Shared σ σ₂ where
  kept py o' ho' := by
    obtain ⟨o₁, ho₁, hforeign, hbytes⟩ := h'.kept py o' ho'
    obtain ⟨o, ho, hforeign', hbytes'⟩ := h.kept py o₁ ho₁
    exact ⟨o, ho, hforeign.trans hforeign', hbytes.trans hbytes'⟩
  foreign py o ho hpos := by
    obtain ⟨o₁, ho₁⟩ := h.foreign py o ho hpos
    obtain ⟨o', ho', hforeign, -⟩ := h.kept py o₁ ho₁
    rw [ho] at ho'
    cases ho'
    exact h'.foreign py o₁ ho₁ (by omega)

section Slices

variable {σ : Heap} {ptr a : Word} {len : Nat} {v : Parts}

theorem slice_zero : slice σ ptr 0 = some [] :=
  if_pos rfl

theorem slice_store {block : Option (List UInt8)} (h : 0 < len → ptr ≠ a) :
    slice (σ.store a block) ptr len = slice σ ptr len := by
  unfold slice
  split_ifs with hlen
  · rfl
  · show (Function.update σ.memory a block ptr).bind _ = _
    rw [Function.update_of_ne (h (by omega))]

theorem slice_block {block : List UInt8} (hblock : σ.memory ptr = some block) (hlen : len ≤ block.length) :
    slice σ ptr len = some (block.take len) := by
  unfold slice
  split_ifs with hzero
  · rw [hzero, List.take_zero]
  · rw [hblock]
    exact if_pos hlen

/-- The bytes in use can be read. -/
theorem Holds.slice (h : Holds σ v) : ∃ bytes, slice σ v.ptr v.len = some bytes ∧ bytes.length = v.len := by
  obtain ⟨hroom, -, -, hblock⟩ := h
  rcases Nat.eq_zero_or_pos v.cap with hcap | hcap
  · have hlen : v.len = 0 := by omega
    exact ⟨[], by rw [hlen]; exact slice_zero, hlen.symm⟩
  · obtain ⟨block, hmem, hlength⟩ := hblock hcap
    refine ⟨block.take v.len, slice_block hmem (by omega), ?_⟩
    rw [List.length_take]
    omega

end Slices

section Headers

variable {loose loose' : Loose} {σ : Heap} {buf : Word} {b : OliveBytes} {o : Option OliveBytes}

/-- How many references the header in a slot has to an object. -/
def held (o : Option OliveBytes) (py : Word) : Nat :=
  if o.any (fun b => decide (b.py = py)) then 1 else 0

theorem contents_put : contents (σ.put buf o) =
    Function.update (contents σ) buf (o.bind fun b => slice σ b.ptr b.len) := by
  funext x
  unfold contents
  by_cases hx : x = buf
  · rw [hx, Function.update_self]
    show (Function.update σ.slots buf o buf).bind _ = _
    rw [Function.update_self]
    rfl
  · rw [Function.update_of_ne hx]
    show (Function.update σ.slots buf o x).bind _ = _
    rw [Function.update_of_ne hx]
    rfl

theorem shared_put : Shared σ (σ.put buf o) :=
  ⟨fun _ o ho => ⟨o, ho, rfl, rfl⟩, fun _ o ho _ => ⟨o, ho⟩⟩

/-- The holders after a header changed. -/
theorem holders_put (σ : Heap) (buf : Word) (o : Option OliveBytes) {py : Word} {holders : Finset Word}
    (h : ∀ x, x ∈ holders ↔ ∃ b, σ.slots x = some b ∧ b.py = py) :
    ∃ holders' : Finset Word, (∀ x, x ∈ holders' ↔ ∃ b, (σ.put buf o).slots x = some b ∧ b.py = py) ∧
      holders'.card + held (σ.slots buf) py = holders.card + held o py := by
  have hcount (q : Option OliveBytes) : (∃ b, q = some b ∧ b.py = py) ↔ held q py = 1 := by
    unfold held
    cases q with
    | none => simp
    | some b => simp
  have hzero (q : Option OliveBytes) : held q py = 0 ∨ held q py = 1 := by
    unfold held
    split_ifs
    · exact .inr rfl
    · exact .inl rfl
  have hother {x : Word} (hx : x ≠ buf) : (σ.put buf o).slots x = σ.slots x :=
    Function.update_of_ne hx _ _
  have hself : (σ.put buf o).slots buf = o := Function.update_self ..
  have hbefore : buf ∈ holders ↔ held (σ.slots buf) py = 1 := (h buf).trans (hcount _)
  refine ⟨if held o py = 1 then insert buf holders else holders.erase buf, ?_, ?_⟩
  · intro x
    rw [hcount]
    by_cases hx : x = buf
    · rw [hx, hself]
      split_ifs with hnew
      · exact ⟨fun _ => hnew, fun _ => Finset.mem_insert_self _ _⟩
      · exact ⟨fun hmem => absurd hmem (Finset.notMem_erase _ _), fun he => absurd he hnew⟩
    · have hsame : x ∈ holders ↔ held (σ.slots x) py = 1 := (h x).trans (hcount _)
      rw [hother hx, ← hsame]
      split_ifs
      · exact ⟨fun hmem => Finset.mem_of_mem_insert_of_ne hmem hx, Finset.mem_insert_of_mem⟩
      · exact ⟨Finset.mem_of_mem_erase, Finset.mem_erase_of_ne_of_mem hx⟩
  · by_cases hmem : buf ∈ holders
    · rw [hbefore.mp hmem]
      split_ifs with hnew
      · rw [Finset.insert_eq_of_mem hmem, hnew]
      · have hcard := Finset.card_erase_add_one hmem
        rcases hzero o with hno | hyes
        · omega
        · exact absurd hyes hnew
    · have hnone : held (σ.slots buf) py = 0 := (hzero _).resolve_right fun he => hmem (hbefore.mpr he)
      rw [hnone]
      split_ifs with hnew
      · rw [Finset.card_insert_of_notMem hmem, hnew]
      · rw [Finset.erase_eq_of_notMem hmem, (hzero o).resolve_right hnew]

/-- A header changes, and what is loose: the blocks go from owner to owner as `f` says. -/
theorem Inv.put (h : Inv loose σ) (f : Owner → Owner) (hf : Function.Injective f)
    (hregion : ∀ owner v, region loose' (σ.put buf o) owner = some v →
      (v.cap = 0 ∧ v.len = 0) ∨ region loose σ (f owner) = some v)
    (hcount : ∀ py, py ≠ 0 → held o py + loose'.count py = held (σ.slots buf) py + loose.count py)
    (hnew : ∀ b, o = some b → buf ≠ 0 ∧ (b.py ≠ 0 → ∃ o, Backed σ b o)) :
    Inv loose' (σ.put buf o) where
  holds owner v hv := by
    rcases hregion owner v hv with ⟨hcap, hlen⟩ | hold
    · exact ⟨by omega, fun _ => hcap, by omega, fun hpos => by omega⟩
    · obtain ⟨hroom, hnull, hsmall, hblock⟩ := h.holds _ v hold
      exact ⟨hroom, hnull, hsmall, hblock⟩
  apart owner owner' v v' hv hv' hcap hcap' hptr := by
    have hold := (hregion owner v hv).resolve_left fun he => by omega
    have hold' := (hregion owner' v' hv').resolve_left fun he => by omega
    exact hf (h.apart _ _ v v' hold hold' hcap hcap' hptr)
  slots x b hb := by
    have hback {b : OliveBytes} (hex : ∃ o, Backed σ b o) : ∃ o', Backed (σ.put buf o) b o' := by
      obtain ⟨o', hobject, hptr, hlen⟩ := hex
      exact ⟨o', hobject, hptr, hlen⟩
    by_cases hx : x = buf
    · have hself : (σ.put buf o).slots buf = o := Function.update_self ..
      rw [hx, hself] at hb
      rw [hx]
      exact ⟨(hnew b hb).1, fun hpy => hback ((hnew b hb).2 hpy)⟩
    · have hother : (σ.put buf o).slots x = σ.slots x := Function.update_of_ne hx _ _
      rw [hother] at hb
      exact ⟨(h.slots x b hb).1, fun hpy => hback ((h.slots x b hb).2 hpy)⟩
  counted py obj hobj := by
    obtain ⟨hne, hroom, hlive, holders, hmem, hrefs⟩ := h.counted py obj hobj
    obtain ⟨holders', hmem', hcard⟩ := holders_put σ buf o hmem
    refine ⟨hne, hroom, hlive, holders', hmem', ?_⟩
    have := hcount py hne
    omega

end Headers

section Blocks

variable {rt : Runtime} {loose : Loose} {σ : Heap} {buf a : Word} {owner skip : Owner} {v : Parts}

/-- The block behind the bytes of a buffer: its own, or that of the object it borrows from. -/
theorem Inv.behind (h : Inv loose σ) {b : OliveBytes} (hb : σ.slots buf = some b) (hlen : 0 < b.len) :
    ∃ owner v, region loose σ owner = some v ∧ 0 < v.cap ∧ b.len ≤ v.cap ∧ v.ptr = b.ptr ∧
      (owner = .buffer buf ∨ owner = .object b.py) := by
  by_cases hpy : b.py = 0
  · have hown : region loose σ (.buffer buf) = some b.toParts := by
      show (σ.slots buf).bind OliveBytes.own = _
      rw [hb]
      exact if_pos hpy
    have hroom := (h.holds _ _ hown).room
    exact ⟨_, _, hown, by omega, hroom, rfl, .inl rfl⟩
  · obtain ⟨o, hobject, hptr, hlength⟩ := (h.slots buf b hb).2 hpy
    have hown : region loose σ (.object b.py) = some o.parts := by
      show (σ.objects b.py).map PyBytes.parts = _
      rw [hobject]
      rfl
    have hroom := (h.holds _ _ hown).room
    exact ⟨_, _, hown, by omega, by omega, hptr.symm, .inr rfl⟩

/-- A write to memory that no owner but `skip` has. -/
theorem Inv.untouched (h : Inv loose σ) (skip : Owner) (block : Option (List UInt8))
    (hclear : ∀ owner v, region loose σ owner = some v → 0 < v.cap → owner ≠ skip → v.ptr ≠ a)
    (hskip : ∀ py, skip ≠ .object py) :
    (∀ buf, skip ≠ .buffer buf → contents (σ.store a block) buf = contents σ buf) ∧
      Shared σ (σ.store a block) := by
  refine ⟨?_, ?_, fun py o ho _ => ⟨o, ho⟩⟩
  · intro buf hbuf
    unfold contents
    show (σ.slots buf).bind _ = _
    cases hb : σ.slots buf with
    | none => rfl
    | some b =>
      apply slice_store
      intro hlen
      obtain ⟨owner, v, hv, hcap, -, hptr, howner⟩ := h.behind hb hlen
      rw [← hptr]
      apply hclear owner v hv hcap
      rintro rfl
      rcases howner with he | he
      · exact hbuf he
      · exact hskip _ he
  · intro py o ho
    refine ⟨o, ho, rfl, ?_⟩
    unfold payload
    show (σ.objects py).bind _ = _
    rw [show σ.objects py = some o from ho]
    apply slice_store
    intro hlen
    have hown : region loose σ (.object py) = some o.parts := by
      show (σ.objects py).map PyBytes.parts = _
      rw [show σ.objects py = some o from ho]
      rfl
    have hroom := (h.holds _ _ hown).room
    exact hclear _ _ hown (by omega) fun he => hskip py he.symm

/-- New bytes in the block of an owner. -/
theorem Inv.store_own (h : Inv loose σ) (hv : region loose σ owner = some v) (hcap : 0 < v.cap)
    {block : List UInt8} (hlen : block.length = v.cap) : Inv loose (σ.store v.ptr (some block)) where
  holds owner' v' hv' := by
    obtain ⟨hroom, hnull, hsmall, hblock⟩ := h.holds owner' v' hv'
    refine ⟨hroom, hnull, hsmall, ?_⟩
    intro hcap'
    show ∃ block', Function.update σ.memory v.ptr (some block) v'.ptr = some block' ∧ _
    by_cases hptr : v'.ptr = v.ptr
    · have hsame := h.apart owner' owner v' v hv' hv hcap' hcap hptr
      rw [hsame, show region loose (σ.store v.ptr (some block)) owner = region loose σ owner from rfl, hv] at hv'
      cases hv'
      exact ⟨block, Function.update_self .., hlen⟩
    · rw [Function.update_of_ne hptr]
      exact hblock hcap'
  apart := h.apart
  slots x b hb := ⟨(h.slots x b hb).1, fun hpy =>
    have ⟨o, hobject, hptr, hlength⟩ := (h.slots x b hb).2 hpy
    ⟨o, hobject, hptr, hlength⟩⟩
  counted py o ho :=
    have ⟨hne, hroom, hlive, hrefs⟩ := h.counted py o ho
    ⟨hne, hroom, hlive, hrefs⟩

/-- Others do not see a write in the block of an owner. -/
theorem Inv.clear_own (h : Inv loose σ) (hv : region loose σ owner = some v) (hcap : 0 < v.cap) :
    ∀ owner' v', region loose σ owner' = some v' → 0 < v'.cap → owner' ≠ owner → v'.ptr ≠ v.ptr :=
  fun owner' v' hv' hcap' hne hptr => hne (h.apart owner' owner v' v hv' hv hcap' hcap hptr)

/-- New memory belongs to nobody. -/
theorem Inv.clear_fresh (h : Inv loose σ) (hfresh : σ.memory a = none) :
    ∀ owner v, region loose σ owner = some v → 0 < v.cap → owner ≠ .loose → v.ptr ≠ a := by
  rintro owner v hv hcap - rfl
  obtain ⟨block, hblock, -⟩ := (h.holds owner v hv).block hcap
  rw [hfresh] at hblock
  cases hblock

/-- A vector that an operation holds, with its bytes; the buffers and the objects are as in `σ`. -/
structure Loosened (σ : Heap) (bytes : List UInt8) (σ' : Heap) (v : Parts) : Prop where
  inv : Inv (.vec v) σ'
  contents : contents σ' = contents σ
  shared : Shared σ σ'
  slots : σ'.slots = σ.slots
  objects : σ'.objects = σ.objects
  len : v.len = bytes.length
  bytes : slice σ' v.ptr v.len = some bytes

/-- The other bytes of a loose vector count as well. -/
theorem Inv.relen (h : Inv (.vec v) σ) {n : Nat} (hn : n ≤ v.cap) : Inv (.vec { v with len := n }) σ := by
  have hback : ∀ owner v', region (.vec { v with len := n }) σ owner = some v' →
      ∃ v₀, region (.vec v) σ owner = some v₀ ∧ v₀.ptr = v'.ptr ∧ v₀.cap = v'.cap ∧ v'.len ≤ v'.cap := by
    intro owner v' hv'
    cases owner with
    | loose =>
      cases hv'
      exact ⟨v, rfl, rfl, rfl, hn⟩
    | buffer buf => exact ⟨v', hv', rfl, rfl, (h.holds (.buffer buf) v' hv').room⟩
    | object py => exact ⟨v', hv', rfl, rfl, (h.holds (.object py) v' hv').room⟩
  constructor
  · intro owner v' hv'
    obtain ⟨v₀, hv₀, hptr, hcap, hroom⟩ := hback owner v' hv'
    obtain ⟨-, hnull, hsmall, hblock⟩ := h.holds owner v₀ hv₀
    rw [hptr, hcap] at hnull
    rw [hptr, hcap] at hblock
    exact ⟨hroom, hnull, by omega, hblock⟩
  · intro owner owner' v₁ v₂ hv₁ hv₂ hcap₁ hcap₂ hptr
    obtain ⟨w₁, hw₁, hp₁, hc₁, -⟩ := hback owner v₁ hv₁
    obtain ⟨w₂, hw₂, hp₂, hc₂, -⟩ := hback owner' v₂ hv₂
    exact h.apart owner owner' w₁ w₂ hw₁ hw₂ (by omega) (by omega) (by rw [hp₁, hp₂, hptr])
  · exact h.slots
  · intro py o ho
    obtain ⟨hne, hroom, hlive, hrefs⟩ := h.counted py o ho
    exact ⟨hne, hroom, hlive, hrefs⟩

/-- A write to memory that nobody has. -/
theorem Inv.store_clear (h : Inv loose σ) (block : Option (List UInt8))
    (hclear : ∀ owner v, region loose σ owner = some v → 0 < v.cap → v.ptr ≠ a) :
    Inv loose (σ.store a block) where
  holds owner v hv := by
    obtain ⟨hroom, hnull, hsmall, hblock⟩ := h.holds owner v hv
    refine ⟨hroom, hnull, hsmall, ?_⟩
    intro hcap
    show ∃ block', Function.update σ.memory a block v.ptr = some block' ∧ _
    rw [Function.update_of_ne (hclear owner v hv hcap)]
    exact hblock hcap
  apart := h.apart
  slots x b hb := ⟨(h.slots x b hb).1, fun hpy =>
    have ⟨o, hobject, hptr, hlength⟩ := (h.slots x b hb).2 hpy
    ⟨o, hobject, hptr, hlength⟩⟩
  counted py o ho :=
    have ⟨hne, hroom, hlive, hrefs⟩ := h.counted py o ho
    ⟨hne, hroom, hlive, hrefs⟩

theorem region_nothing (loose : Loose) (hv : region .nothing σ owner = some v) :
    owner ≠ .loose ∧ region loose σ owner = some v := by
  cases owner with
  | loose => cases hv
  | buffer buf => exact ⟨fun he => (nomatch he), hv⟩
  | object py => exact ⟨fun he => (nomatch he), hv⟩

/-- A vector that nobody else has. -/
theorem Inv.gain (h : Inv .nothing σ) (hv : Holds σ v)
    (hclear : 0 < v.cap → ∀ owner v', region .nothing σ owner = some v' → 0 < v'.cap → v'.ptr ≠ v.ptr) :
    Inv (.vec v) σ where
  holds owner v' hv' := by
    cases owner with
    | loose =>
      cases hv'
      exact hv
    | buffer buf => exact h.holds (.buffer buf) v' hv'
    | object py => exact h.holds (.object py) v' hv'
  apart owner owner' v₁ v₂ hv₁ hv₂ hcap₁ hcap₂ hptr := by
    have hsplit (owner : Owner) (v' : Parts) (hv' : region (.vec v) σ owner = some v') :
        owner = .loose ∧ v' = v ∨ region .nothing σ owner = some v' := by
      cases owner with
      | loose =>
        cases hv'
        exact .inl ⟨rfl, rfl⟩
      | buffer buf => exact .inr hv'
      | object py => exact .inr hv'
    rcases hsplit owner v₁ hv₁ with ⟨rfl, rfl⟩ | hold₁
    · rcases hsplit owner' v₂ hv₂ with ⟨rfl, rfl⟩ | hold₂
      · rfl
      · exact absurd hptr.symm (hclear hcap₁ owner' v₂ hold₂ hcap₂)
    · rcases hsplit owner' v₂ hv₂ with ⟨rfl, rfl⟩ | hold₂
      · exact absurd hptr (hclear hcap₂ owner v₁ hold₁ hcap₁)
      · exact h.apart owner owner' v₁ v₂ hold₁ hold₂ hcap₁ hcap₂ hptr
  slots := h.slots
  counted py o ho :=
    have ⟨hne, hroom, hlive, hrefs⟩ := h.counted py o ho
    ⟨hne, hroom, hlive, hrefs⟩

theorem Inv.lose (h : Inv (.vec v) σ) : Inv .nothing σ where
  holds owner v' hv' := h.holds owner v' (region_nothing _ hv').2
  apart owner owner' v₁ v₂ hv₁ hv₂ :=
    h.apart owner owner' v₁ v₂ (region_nothing _ hv₁).2 (region_nothing _ hv₂).2
  slots := h.slots
  counted py o ho :=
    have ⟨hne, hroom, hlive, hrefs⟩ := h.counted py o ho
    ⟨hne, hroom, hlive, hrefs⟩

theorem allocate_done (rt : Runtime) (h : Inv .nothing σ) (bytes : List UInt8) (cap : Nat) (hcap : bytes.length ≤ cap) :
    allocate rt σ bytes cap = .error .outOfMemory ∨
      ∃ σ' v, allocate rt σ bytes cap = .ok (σ', v) ∧ Loosened σ bytes σ' v ∧ v.cap = cap := by
  unfold allocate
  split_ifs with hzero
  · right
    have hnil : bytes = [] := List.eq_nil_of_length_eq_zero (by omega)
    refine ⟨σ, _, rfl, ⟨?_, rfl, Shared.refl σ, rfl, rfl, rfl, ?_⟩, hzero.symm⟩
    · refine h.gain ⟨?_, fun _ => rfl, Nat.two_pow_pos 63, fun hpos => absurd hpos (Nat.lt_irrefl 0)⟩
        fun hpos => absurd hpos (Nat.lt_irrefl 0)
      rw [hnil]
      exact Nat.le_refl 0
    · rw [hnil]
      exact slice_zero
  · cases hmalloc : rt.malloc σ cap with
    | none => exact .inl rfl
    | some a =>
      right
      obtain ⟨hfresh, hne, hsmall⟩ := rt.malloc_fresh σ cap a hmalloc
      obtain ⟨hcontents, hshared⟩ := h.untouched .loose (some (bytes ++ rt.spare σ (cap - bytes.length)))
        (h.clear_fresh hfresh) fun py he => nomatch he
      have hlen : (bytes ++ rt.spare σ (cap - bytes.length)).length = cap := by
        rw [List.length_append, rt.length_spare]
        omega
      have hself : (σ.store a (some (bytes ++ rt.spare σ (cap - bytes.length)))).memory a =
          some (bytes ++ rt.spare σ (cap - bytes.length)) := Function.update_self ..
      have hclear : ∀ owner v, region .nothing σ owner = some v → 0 < v.cap → v.ptr ≠ a :=
        fun owner v hv hpos => h.clear_fresh hfresh owner v hv hpos (region_nothing .nothing hv).1
      refine ⟨_, _, rfl, ⟨?_, ?_, hshared, rfl, rfl, rfl, ?_⟩, rfl⟩
      · exact (h.store_clear _ hclear).gain ⟨hcap, fun he => absurd he hne, hsmall, fun _ => ⟨_, hself, hlen⟩⟩
          fun _ => hclear
      · funext buf
        exact hcontents buf fun he => nomatch he
      · show slice _ a bytes.length = _
        rw [slice_block hself (by omega), List.take_left]

/-- A loose vector is dropped. -/
theorem dealloc_done (h : Inv (.vec v) σ) : ∃ σ', dealloc σ v = .ok σ' ∧ Inv .nothing σ' ∧
    contents σ' = contents σ ∧ Shared σ σ' ∧ σ'.slots = σ.slots ∧ σ'.objects = σ.objects := by
  have hv : region (.vec v) σ .loose = some v := rfl
  unfold dealloc
  split_ifs with hzero
  · exact ⟨σ, rfl, h.lose, rfl, Shared.refl σ, rfl, rfl⟩
  · have hcap : 0 < v.cap := by omega
    obtain ⟨block, hblock, hlen⟩ := (h.holds _ _ hv).block hcap
    have hclear := h.clear_own hv hcap
    obtain ⟨hcontents, hshared⟩ := h.untouched .loose none hclear fun py he => nomatch he
    refine ⟨σ.store v.ptr none, ?_, ?_, ?_, hshared, rfl, rfl⟩
    · rw [hblock]
      exact if_pos hlen
    · refine h.lose.store_clear none fun owner v' hv' hcap' => ?_
      obtain ⟨hne, hold⟩ := region_nothing (.vec v) hv'
      exact hclear owner v' hold hcap' hne
    · funext buf
      exact hcontents buf fun he => nomatch he

/-- New bytes in a block: those in use up to where the write ends, or all of them if it ends among them. -/
theorem poke_done (h : Inv loose σ) (hv : region loose σ owner = some v) (hobject : ∀ py, owner ≠ .object py)
    (off : Nat) (data : List UInt8) (hcap : off + data.length ≤ v.cap) :
    ∃ σ', poke σ v.ptr off data = .ok σ' ∧ Inv loose σ' ∧ Shared σ σ' ∧ σ'.slots = σ.slots ∧
      σ'.objects = σ.objects ∧ (∀ buf, owner ≠ .buffer buf → contents σ' buf = contents σ buf) ∧
      (∀ bytes, slice σ v.ptr off = some bytes →
        slice σ' v.ptr (off + data.length) = some (bytes ++ data)) ∧
      ∀ bytes, slice σ v.ptr v.len = some bytes → off + data.length ≤ v.len →
        slice σ' v.ptr v.len = some (overwrite bytes off data) := by
  unfold poke
  split_ifs with hnil
  · refine ⟨σ, rfl, h, Shared.refl σ, rfl, rfl, fun _ _ => rfl, ?_, ?_⟩
    · intro bytes hbytes
      rw [hnil, List.append_nil]
      exact hbytes
    · intro bytes hbytes _
      rw [hnil, overwrite_nil]
      exact hbytes
  · have hpos : 0 < data.length := List.length_pos_iff.mpr hnil
    have hroom := (h.holds owner v hv).room
    obtain ⟨block, hblock, hlen⟩ := (h.holds owner v hv).block (by omega)
    have hfits : off + data.length ≤ block.length := by omega
    have hlen' : (overwrite block off data).length = v.cap := (length_overwrite hfits).trans hlen
    obtain ⟨hcontents, hshared⟩ := h.untouched owner (some (overwrite block off data))
      (h.clear_own hv (by omega)) hobject
    have hself : (σ.store v.ptr (some (overwrite block off data))).memory v.ptr =
        some (overwrite block off data) := Function.update_self ..
    refine ⟨_, ?_, h.store_own hv (by omega) hlen', hshared, rfl, rfl, hcontents, ?_, ?_⟩
    · rw [hblock]
      exact if_pos hfits
    · intro bytes hbytes
      rw [slice_block hblock (by omega)] at hbytes
      cases hbytes
      rw [slice_block hself (by omega), take_overwrite_append hfits]
    · intro bytes hbytes hend
      rw [slice_block hblock (by omega)] at hbytes
      cases hbytes
      rw [slice_block hself (by omega), take_overwrite hend (by omega)]

end Blocks

section Vectors

variable {rt : Runtime} {σ₀ σ : Heap} {bytes data : List UInt8} {v : Parts} {n : Nat}

theorem Loosened.len_cap (hm : Loosened σ₀ bytes σ v) : v.len ≤ v.cap :=
  (hm.inv.holds .loose v rfl).room

theorem reserve_done (rt : Runtime) (hm : Loosened σ₀ bytes σ v) (n : Nat) :
    reserve rt σ v n = .error .outOfMemory ∨
      ∃ σ' v', reserve rt σ v n = .ok (σ', v') ∧ Loosened σ₀ bytes σ' v' ∧ v.len + n ≤ v'.cap := by
  unfold reserve
  split_ifs with hroom
  · exact .inr ⟨σ, v, rfl, hm, hroom⟩
  · obtain ⟨σ₁, hdealloc, hinv, hcontents, hshared, hslots, hobjects⟩ := dealloc_done hm.inv
    have hlen := hm.len
    have hgrow := rt.le_grow v.cap (v.len + n)
    rw [hm.bytes]
    show (((dealloc σ v).bind fun σ => allocate rt σ bytes (rt.grow v.cap (v.len + n))) :
      Outcome (Heap × Parts)) = _ ∨ ∃ σ' v', (((dealloc σ v).bind fun σ =>
        allocate rt σ bytes (rt.grow v.cap (v.len + n))) : Outcome (Heap × Parts)) = .ok (σ', v') ∧ _
    rw [hdealloc]
    show allocate rt σ₁ bytes (rt.grow v.cap (v.len + n)) = _ ∨
      ∃ σ' v', allocate rt σ₁ bytes (rt.grow v.cap (v.len + n)) = .ok (σ', v') ∧ _
    rcases allocate_done rt hinv bytes (rt.grow v.cap (v.len + n)) (by omega) with
      hfull | ⟨σ', v', halloc, hm', hcap⟩
    · exact .inl hfull
    · refine .inr ⟨σ', v', halloc, ?_, by omega⟩
      exact ⟨hm'.inv, hm'.contents.trans (hcontents.trans hm.contents),
        hm.shared.trans (hshared.trans hm'.shared), hm'.slots.trans (hslots.trans hm.slots),
        hm'.objects.trans (hobjects.trans hm.objects), hm'.len, hm'.bytes⟩

/-- A write into a loose vector that leaves `n` bytes in use. -/
theorem Loosened.poke (hm : Loosened σ₀ bytes σ v) (off n : Nat) (data out : List UInt8)
    (hcap : off + data.length ≤ v.cap) (hn : n ≤ v.cap) (hout : out.length = n)
    (hread : ∀ σ', (∀ b, slice σ v.ptr off = some b → slice σ' v.ptr (off + data.length) = some (b ++ data)) →
      (off + data.length ≤ v.len → slice σ' v.ptr v.len = some (overwrite bytes off data)) →
        slice σ' v.ptr n = some out) :
    ∃ σ', poke σ v.ptr off data = .ok σ' ∧ Loosened σ₀ out σ' { v with len := n } := by
  have hv : region (.vec v) σ .loose = some v := rfl
  obtain ⟨σ', hpoke, hinv, hshared, hslots, hobjects, hcontents, hend, hin⟩ :=
    poke_done hm.inv hv (fun py he => nomatch he) off data hcap
  refine ⟨σ', hpoke, hinv.relen hn, ?_, hm.shared.trans hshared, hslots.trans hm.slots,
    hobjects.trans hm.objects, hout.symm, hread σ' hend (hin bytes hm.bytes)⟩
  rw [← hm.contents]
  funext buf
  exact hcontents buf fun he => nomatch he

theorem extendFromSlice_done (hm : Loosened σ₀ bytes σ v) (data : List UInt8) :
    extendFromSlice rt σ data v = .error .outOfMemory ∨
      ∃ σ' v', extendFromSlice rt σ data v = .ok (σ', v') ∧ Loosened σ₀ (bytes ++ data) σ' v' := by
  unfold extendFromSlice
  rcases reserve_done rt hm data.length with hfull | ⟨σ₁, v₁, hreserve, hm₁, hroom⟩
  · left
    rw [hfull]
    rfl
  · right
    have hlen : v₁.len = v.len := hm₁.len.trans hm.len.symm
    obtain ⟨σ', hpoke, hm'⟩ := hm₁.poke v₁.len (v₁.len + data.length) data
      (bytes ++ data) (by omega) (by omega) (by rw [List.length_append, hm₁.len])
      fun σ' hend _ => hend bytes hm₁.bytes
    refine ⟨σ', _, ?_, hm'⟩
    rw [hreserve]
    show (poke σ₁ v₁.ptr v₁.len data).map _ = _
    rw [hpoke]
    rfl

theorem resize_done (rt : Runtime) (hm : Loosened σ₀ bytes σ v) (hn : bytes.length ≤ n) :
    resize rt σ n v = .error .outOfMemory ∨
      ∃ σ' v', resize rt σ n v = .ok (σ', v') ∧ Loosened σ₀ (padTo 0 bytes n) σ' v' := by
  have hlen := hm.len
  unfold resize
  split_ifs with hle
  · have hsame : n = v.len := by omega
    subst hsame
    refine .inr ⟨σ, v, rfl, ?_⟩
    rw [padTo_of_le (by omega)]
    exact hm
  · have hpad : padTo 0 bytes n = bytes ++ List.replicate (n - v.len) 0 := by
      unfold padTo
      rw [hlen]
    rw [hpad]
    exact extendFromSlice_done hm _

end Vectors

end Buffers

end Olive
