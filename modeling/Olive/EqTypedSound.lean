import Olive.EqTypedReturns
import Olive.EqTypedUnshared

/-! What `olive_eq_typed` decides. -/

namespace Olive

namespace EqTyped

variable {h : TypedHeap} {T : Shape → Word → Prop} {s : Shape} {a b c : Word} {ta tb tc : Tree}

/-- `olive_eq_typed` answers `r`, and has taken no two different values for equal on the way. -/
def Answers (h : TypedHeap) (s : Shape) (a b : Word) (r : Bool) : Prop :=
  ∃ fuel st, oliveEqTyped h fuel s a b = some (r, st) ∧ Right h st

/-- `olive_any_eq` is an equality between the `Any` and bytes words of these values. -/
def Regular (h : TypedHeap) (ts : List Tree) : Prop :=
  Tree.AnyRegular h.anyEq fun w => ∃ t ∈ ts, w ∈ t.anyWords

theorem Regular.within {ts : List Tree} {t : Tree} (ht : t ∈ ts) :
    t.Within fun w => ∃ t ∈ ts, w ∈ t.anyWords := fun _ hw => ⟨t, ht, hw⟩

theorem answers_iff {r : Bool} {ts : List Tree} (hr : Regular h ts) (hta : ta ∈ ts) (htb : tb ∈ ts)
    (ha : Unfolds h s a ta) (hb : Unfolds h s b tb) (hans : Answers h s a b r) :
    r = true ↔ ta.Same h.anyEq tb := by
  obtain ⟨fuel, st, hrun, hright⟩ := hans
  exact (eqVal_right hr fuel hrun ha hb (Regular.within hta) (Regular.within htb) hright).2

structure DecidesEquality (h : TypedHeap) (T : Shape → Word → Prop) : Prop where
  /-- Cycles included. -/
  returns : ∀ s a b, T s a → T s b → ∀ fuel, depth h ≤ fuel →
    ∃ r st, oliveEqTyped h fuel s a b = some (r, st)
  decides : ∀ s a b ta tb, Unfolds h s a ta → Unfolds h s b tb → Regular h [ta, tb] →
    ∀ r, Answers h s a b r → (r = true ↔ ta.Same h.anyEq tb)
  refl : ∀ s a r, Answers h s a a r → r = true
  symm : ∀ s a b ta tb, Unfolds h s a ta → Unfolds h s b tb → Regular h [ta, tb] →
    Answers h s a b true → ∀ r, Answers h s b a r → r = true
  trans : ∀ s a b c ta tb tc, Unfolds h s a ta → Unfolds h s b tb → Unfolds h s c tc →
    Regular h [ta, tb, tc] → Answers h s a b true → Answers h s b c true →
    ∀ r, Answers h s a c r → r = true
  /-- No answer is taken between values in which no slot is reached twice. -/
  unshared : ∀ s a b ta tb, Unfolds h s a ta → Unfolds h s b tb → (ta.occupied h).Nodup →
    (tb.occupied h).Nodup → ∀ fuel r st, oliveEqTyped h fuel s a b = some (r, st) → Right h st

/-- The sets {(t, 1), (t, 2)} at 64 and {((9,), 2), ((7,), 1)} at 72, where t is (7,). -/
def pairHeap : TypedHeap where
  slots := [(8, .vec [7]), (16, .vec [9]), (24, .vec [7]), (32, .vec [8, 1]), (40, .vec [8, 2]),
    (48, .vec [16, 2]), (56, .vec [24, 1]), (64, .hashSet [32, 40]), (72, .hashSet [48, 56])]
  text _ := []
  anyEq _ _ := false
  shapes _ := .leaf

def oneShape : Shape := .tuple [.leaf]

def pairShape : Shape := .tuple [oneShape, .leaf]

/-- What each word of `pairHeap` is a value of. -/
def PairTyping (s : Shape) (w : Word) : Prop :=
  s = .leaf ∨ s = oneShape ∧ w ∈ [(8 : Word), 16, 24] ∨ s = pairShape ∧ w ∈ [(32 : Word), 40, 48, 56] ∨
    s = .set pairShape ∧ w ∈ [(64 : Word), 72]

theorem pair_typed : pairHeap.WellTyped PairTyping := by
  intro s w hw
  rcases hw with rfl | ⟨rfl, hw⟩ | ⟨rfl, hw⟩ | ⟨rfl, hw⟩
  · trivial
  all_goals
    intro o ho
    simp only [List.mem_cons, List.not_mem_nil, or_false] at hw
  · rcases hw with rfl | rfl | rfl <;> cases ho <;>
      exact ⟨_, rfl, by simp [PairTyping, TypedHeap.padded]⟩
  · rcases hw with rfl | rfl | rfl | rfl <;> cases ho <;>
      exact ⟨_, rfl, by simp [PairTyping, TypedHeap.padded]⟩
  · rcases hw with rfl | rfl <;> cases ho <;> exact ⟨_, rfl, by simp [PairTyping]⟩

/-- (n,) at `w`. -/
def oneTree (w n : Word) : Tree := .seq w [.word n]

/-- ((n,), k) at `w`. -/
def pairTree (w v n k : Word) : Tree := .seq w [oneTree v n, .word k]

theorem one_unfolds {w n : Word} (hw : pairHeap.find w = some (.vec [n])) :
    Unfolds pairHeap oneShape w (oneTree w n) := by
  have hparts : TypedHeap.parts oneShape (.vec [n]) = some [(.leaf, n)] := rfl
  refine .seq hw hparts (fun p => .word p.2) fun p hp => ?_
  rw [List.mem_singleton.mp hp]
  exact .leaf n

theorem pair_unfolds {w v n k : Word} (hw : pairHeap.find w = some (.vec [v, k]))
    (hv : pairHeap.find v = some (.vec [n])) (hne : v ≠ k) :
    Unfolds pairHeap pairShape w (pairTree w v n k) := by
  have htree : Unfolds pairHeap pairShape w (.seq w ([(oneShape, v), (Shape.leaf, k)].map
      fun p => if p.2 = v then oneTree v n else .word p.2)) := by
    refine .seq hw rfl _ fun p hp => ?_
    simp only [List.mem_cons, List.not_mem_nil, or_false] at hp
    rcases hp with rfl | rfl
    · rw [if_pos rfl]
      exact one_unfolds hv
    · rw [if_neg (Ne.symm hne)]
      exact .leaf k
  simpa [pairTree, hne, Ne.symm hne] using htree

end EqTyped

end Olive
