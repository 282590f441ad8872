import Mathlib.Data.List.Nodup
import Mathlib.Logic.Function.Basic

/-! Singly linked lists through the words of a memory: a node keeps the address of the next one at
a fixed offset. -/

namespace Linked

abbrev Memory := Nat → Nat

variable {mem mem' : Memory} {off p : Nat} {nodes : List Nat}

/-- From `p` the links visit `nodes` and end at the null address. -/
def Links (mem : Memory) (off : Nat) : Nat → List Nat → Prop
  | p, [] => p = 0
  | p, a :: nodes => p = a ∧ a ≠ 0 ∧ Links mem off (mem (a + off)) nodes

theorem Links.ne_zero (h : Links mem off p nodes) {a : Nat} (ha : a ∈ nodes) : a ≠ 0 := by
  induction nodes generalizing p with
  | nil => simp at ha
  | cons b nodes ih =>
    rcases List.mem_cons.mp ha with rfl | ha
    · exact h.2.1
    · exact ih h.2.2 ha

theorem Links.unique {nodes' : List Nat} (h : Links mem off p nodes) (h' : Links mem off p nodes') :
    nodes = nodes' := by
  induction nodes generalizing p nodes' with
  | nil =>
    cases nodes' with
    | nil => rfl
    | cons a nodes' => exact absurd (h'.1.symm.trans h) h'.2.1
  | cons a nodes ih =>
    cases nodes' with
    | nil => exact absurd (h.1.symm.trans h') h.2.1
    | cons b nodes' =>
      obtain ⟨rfl, _, hrest⟩ := h
      obtain ⟨rfl, _, hrest'⟩ := h'
      rw [ih hrest hrest']

/-- A list does not change with the words outside its links. -/
theorem Links.congr (h : Links mem off p nodes)
    (heq : ∀ a ∈ nodes, mem' (a + off) = mem (a + off)) : Links mem' off p nodes := by
  induction nodes generalizing p with
  | nil => exact h
  | cons a nodes ih =>
    obtain ⟨hp, hne, hrest⟩ := h
    refine ⟨hp, hne, ?_⟩
    rw [heq a (by simp)]
    exact ih hrest fun b hb => heq b (List.mem_cons_of_mem a hb)

theorem Links.cons (h : Links mem off p nodes) {a : Nat} (hne : a ≠ 0) (ha : a ∉ nodes) :
    Links (Function.update mem (a + off) p) off a (a :: nodes) := by
  refine ⟨rfl, hne, ?_⟩
  rw [Function.update_self]
  refine h.congr fun b hb => Function.update_of_ne ?_ ..
  intro hba
  exact ha ((Nat.add_right_cancel hba) ▸ hb)

/-- A loop over the list that carries a value; it gives up when its fuel ends. -/
def walk {β : Type} (mem : Memory) (off : Nat) (f : β → Nat → β) : Nat → Nat → β → Option β
  | 0, _, _ => none
  | fuel + 1, curr, acc =>
    if curr = 0 then some acc else walk mem off f fuel (mem (curr + off)) (f acc curr)

theorem walk_eq {β : Type} {f : β → Nat → β} {fuel : Nat} (h : Links mem off p nodes)
    (hfuel : nodes.length < fuel) (acc : β) :
    walk mem off f fuel p acc = some (nodes.foldl f acc) := by
  induction nodes generalizing p fuel acc with
  | nil =>
    obtain ⟨fuel, rfl⟩ := Nat.exists_eq_add_of_lt hfuel
    have hp : p = 0 := h
    simp only [List.length_nil, Nat.zero_add, walk, if_pos hp]
    rfl
  | cons a nodes ih =>
    obtain ⟨rfl, hne, hrest⟩ := h
    obtain ⟨fuel, rfl⟩ := Nat.exists_eq_add_of_lt (Nat.lt_of_le_of_lt (Nat.zero_le _) hfuel)
    rw [Nat.zero_add] at hfuel ⊢
    simp only [walk, if_neg hne, List.foldl_cons]
    exact ih hrest (by simpa using hfuel) _

theorem foldl_count (f : Nat → Bool) (n : Nat) :
    nodes.foldl (fun count a => if f a then count + 1 else count) n = n + nodes.countP f := by
  induction nodes generalizing n with
  | nil => rfl
  | cons a nodes ih =>
    rw [List.foldl_cons, ih, List.countP_cons]
    split <;> omega

/-- The word that points at the current node: the head of the list, or the link of the node before
it. -/
inductive Cell where
  | head
  | link (a : Nat)

/-- A list and the memory it runs through. -/
structure Chain where
  head : Nat
  mem : Memory

def Chain.get (off : Nat) (s : Chain) : Cell → Nat
  | .head => s.head
  | .link a => s.mem (a + off)

def Chain.set (off : Nat) (s : Chain) (v : Nat) : Cell → Chain
  | .head => { s with head := v }
  | .link a => { s with mem := Function.update s.mem (a + off) v }

/-- The loop that takes the nodes with `drop` out: `prev` is the word that points at `curr`. -/
def remove (off : Nat) (drop : Nat → Bool) : Nat → Cell → Nat → Chain → Option Chain
  | 0, _, _, _ => none
  | fuel + 1, prev, curr, s =>
    if curr = 0 then some s
    else
      let next := s.mem (curr + off)
      if drop curr then remove off drop fuel prev next (s.set off next prev)
      else remove off drop fuel (.link curr) next s

/-- `prev` is none of the links of `nodes`. -/
def Cell.Apart (prev : Cell) (nodes : List Nat) : Prop := ∀ a, prev = .link a → a ∉ nodes

theorem Chain.get_set (s : Chain) (v : Nat) (prev : Cell) : (s.set off v prev).get off prev = v := by
  cases prev with
  | head => rfl
  | link a => exact Function.update_self ..

theorem Chain.set_mem (s : Chain) (v : Nat) {prev : Cell} {x : Nat}
    (h : ∀ a, prev = .link a → x ≠ a + off) : (s.set off v prev).mem x = s.mem x := by
  cases prev with
  | head => rfl
  | link a => exact Function.update_of_ne (h a rfl) ..

/-- What the loop does: the nodes that stay are linked in their order, and no other word changes
but the one the loop started from. -/
theorem remove_spec {drop : Nat → Bool} {fuel : Nat} {prev : Cell} {s : Chain}
    (h : Links s.mem off p nodes) (hp : s.get off prev = p) (hnodup : nodes.Nodup)
    (hprev : prev.Apart nodes) (hfuel : nodes.length < fuel) :
    ∃ s', remove off drop fuel prev p s = some s' ∧
      Links s'.mem off (s'.get off prev) (nodes.filter (! drop ·)) ∧
      (∀ x, (∀ a ∈ nodes, x ≠ a + off) → (∀ a, prev = .link a → x ≠ a + off) →
        s'.mem x = s.mem x) ∧
      (∀ a, prev = .link a → s'.head = s.head) := by
  induction nodes generalizing p fuel prev s with
  | nil =>
    obtain ⟨fuel, rfl⟩ := Nat.exists_eq_add_of_lt hfuel
    have hz : p = 0 := h
    simp only [List.length_nil, Nat.zero_add, remove, if_pos hz]
    exact ⟨s, rfl, hp.trans hz, fun _ _ _ => rfl, fun _ _ => rfl⟩
  | cons a nodes ih =>
    obtain ⟨rfl, hne, hrest⟩ := h
    obtain ⟨hnot, hnodup⟩ := List.nodup_cons.mp hnodup
    obtain ⟨fuel, rfl⟩ := Nat.exists_eq_add_of_lt (Nat.lt_of_le_of_lt (Nat.zero_le _) hfuel)
    rw [Nat.zero_add] at hfuel ⊢
    have hfuel' : nodes.length < fuel := by simpa using hfuel
    simp only [remove, if_neg hne]
    by_cases hdrop : drop p = true
    · have hapart : prev.Apart nodes := fun b hb hmem => hprev b hb (List.mem_cons_of_mem p hmem)
      have hsame : ∀ b ∈ nodes,
          (s.set off (s.mem (p + off)) prev).mem (b + off) = s.mem (b + off) := by
        intro b hb
        refine Chain.set_mem s _ fun c hc hbc => hapart c hc ?_
        exact (Nat.add_right_cancel hbc) ▸ hb
      obtain ⟨s', hrun, hlinks, hmem, hhead⟩ :=
        ih (hrest.congr hsame) (Chain.get_set s _ prev) hnodup hapart hfuel'
      refine ⟨s', by rw [if_pos hdrop, hrun], by simpa [hdrop] using hlinks, ?_, ?_⟩
      · intro x hx hxp
        rw [hmem x (fun b hb => hx b (List.mem_cons_of_mem p hb)) hxp]
        exact Chain.set_mem s _ hxp
      · intro b hb
        rw [hhead b hb, hb]
        rfl
    · have hapart : (Cell.link p).Apart nodes := by
        intro b hb hmem
        cases hb
        exact hnot hmem
      obtain ⟨s', hrun, hlinks, hmem, hhead⟩ := ih hrest rfl hnodup hapart hfuel'
      have hprev' : s'.get off prev = p := by
        cases prev with
        | head => exact (hhead p rfl).trans hp
        | link b =>
          have hb := hprev b rfl
          simp only [List.mem_cons, not_or] at hb
          rw [← hp]
          refine hmem (b + off) (fun c hc hbc => ?_) (fun c hc hbc => ?_)
          · exact hb.2 ((Nat.add_right_cancel hbc) ▸ hc)
          · cases hc
            exact hb.1 (Nat.add_right_cancel hbc)
      refine ⟨s', by rw [if_neg hdrop, hrun], ?_, ?_, fun _ _ => hhead p rfl⟩
      · rw [hprev', List.filter_cons_of_pos (by simpa using hdrop)]
        exact ⟨rfl, hne, hlinks⟩
      · intro x hx _
        refine hmem x (fun b hb => hx b (List.mem_cons_of_mem p hb)) fun b hb => ?_
        cases hb
        exact hx p (by simp)

end Linked
