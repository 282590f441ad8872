import Mathlib.Data.List.Basic

/-! A stack of any depth in a ring of slots: an element pushed when all slots are taken overwrites
the one as many places below it. -/

namespace RingStack

variable {α : Type}

structure Ring (α : Type) where
  slots : List α
  depth : Nat

def Ring.push (r : Ring α) (x : α) : Ring α :=
  ⟨r.slots.set (r.depth % r.slots.length) x, r.depth + 1⟩

def Ring.pop (r : Ring α) : Ring α := ⟨r.slots, r.depth - 1⟩

/-- The slots of the innermost elements, innermost first. -/
def Ring.shown [Inhabited α] (r : Ring α) : List α :=
  (List.range (min r.depth r.slots.length)).map fun i =>
    r.slots.getD ((r.depth - 1 - i) % r.slots.length) default

/-- An element of the stack, and the greatest depth that the stack has had since it was pushed. -/
structure Entry (α : Type) where
  value : α
  deepest : Nat
  deriving DecidableEq, Repr

def pushEntry (x : α) (live : List (Entry α)) : List (Entry α) :=
  ⟨x, live.length + 1⟩ :: live.map fun e => { e with deepest := max e.deepest (live.length + 1) }

theorem pushEntry_values (x : α) (live : List (Entry α)) :
    (pushEntry x live).map (·.value) = x :: live.map (·.value) := by
  rw [pushEntry, List.map_cons, List.map_map]
  rfl

/-- Each element that the stack never was `r.slots.length` deeper than is still in its slot. -/
structure Shows (r : Ring α) (live : List (Entry α)) : Prop where
  depth : r.depth = live.length
  kept : ∀ i e, live[i]? = some e → e.deepest ≤ live.length - 1 - i + r.slots.length →
    r.slots[(live.length - 1 - i) % r.slots.length]? = some e.value

variable {r : Ring α} {live : List (Entry α)} {x : α}

@[simp] theorem push_slots_length : (r.push x).slots.length = r.slots.length := by
  simp [Ring.push]

theorem shows_nil (slots : List α) : Shows ⟨slots, 0⟩ [] := ⟨rfl, by simp⟩

theorem mod_ne_of_lt {a b n : Nat} (hlt : a < b) (hnear : b < a + n) : a % n ≠ b % n := by
  intro heq
  have hdvd : n ∣ b - a := Nat.dvd_of_mod_eq_zero (Nat.sub_mod_eq_zero_of_mod_eq heq.symm)
  have hle := Nat.le_of_dvd (by omega) hdvd
  omega

theorem Shows.push (h : Shows r live) (hcap : 0 < r.slots.length) :
    Shows (r.push x) (pushEntry x live) := by
  refine ⟨by simp [Ring.push, pushEntry, h.depth], ?_⟩
  intro i e he hdeep
  simp only [push_slots_length] at hdeep ⊢
  have hslot : r.depth % r.slots.length < r.slots.length := Nat.mod_lt _ hcap
  cases i with
  | zero =>
    obtain rfl : (⟨x, live.length + 1⟩ : Entry α) = e := Option.some.inj he
    simp [Ring.push, pushEntry, h.depth, Nat.mod_lt _ hcap]
  | succ i =>
    rw [pushEntry, List.getElem?_cons_succ, List.getElem?_map] at he
    obtain ⟨e', he', rfl⟩ := Option.map_eq_some_iff.mp he
    have hi : i < live.length := (List.getElem?_eq_some_iff.mp he').1
    simp only [pushEntry, List.length_cons, List.length_map] at hdeep ⊢
    have hplace : live.length + 1 - 1 - (i + 1) = live.length - 1 - i := by omega
    rw [hplace] at hdeep ⊢
    -- The new element lies fewer than all slots above this one.
    have hne : (live.length - 1 - i) % r.slots.length ≠ r.depth % r.slots.length := by
      rw [h.depth]
      exact mod_ne_of_lt (by omega) (by omega)
    rw [Ring.push, List.getElem?_set_ne hne.symm]
    exact h.kept i e' he' (by omega)

theorem Shows.pop (h : Shows r live) : Shows r.pop live.tail := by
  refine ⟨by simp [Ring.pop, h.depth], ?_⟩
  intro i e he hdeep
  rw [List.getElem?_tail] at he
  have hi : i + 1 < live.length := (List.getElem?_eq_some_iff.mp he).1
  have hplace : live.tail.length - 1 - i = live.length - 1 - (i + 1) := by
    rw [List.length_tail]
    omega
  rw [hplace] at hdeep ⊢
  exact h.kept (i + 1) e he hdeep

theorem shown_length [Inhabited α] (h : Shows r live) :
    r.shown.length = min live.length r.slots.length := by
  simp [Ring.shown, h.depth]

theorem Shows.shown_eq [Inhabited α] (h : Shows r live) {i : Nat} {e : Entry α}
    (he : live[i]? = some e) (hi : i < r.slots.length)
    (hdeep : e.deepest ≤ live.length - 1 - i + r.slots.length) :
    r.shown[i]? = some e.value := by
  have hlive : i < live.length := (List.getElem?_eq_some_iff.mp he).1
  have hkept := h.kept i e he hdeep
  rw [Ring.shown, List.getElem?_map, List.getElem?_range (by rw [h.depth]; omega), Option.map_some,
    List.getD_eq_getElem?_getD, h.depth, hkept, Option.getD_some]

end RingStack
