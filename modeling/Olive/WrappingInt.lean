import Mathlib.Algebra.Order.Ring.Int
import Mathlib.Tactic.Ring

/-! Signed 64-bit integers as the integers they stand for, with the arithmetic that wraps. -/

namespace I64

def Fits (x : Int) : Prop :=
  -2 ^ 63 ≤ x ∧ x < 2 ^ 63

instance : DecidablePred Fits := fun _ => inferInstanceAs (Decidable (_ ∧ _))

/-- The word that `x` has modulo 2^64. -/
def wrap (x : Int) : Int :=
  (x + 2 ^ 63) % 2 ^ 64 - 2 ^ 63

def wrappingAdd (a b : Int) : Int := wrap (a + b)

def wrappingSub (a b : Int) : Int := wrap (a - b)

def wrappingMul (a b : Int) : Int := wrap (a * b)

/-- The operators that stop the program where the result does not fit. -/
def checkedAdd (a b : Int) : Option Int :=
  if Fits (a + b) then some (a + b) else none

def checkedSub (a b : Int) : Option Int :=
  if Fits (a - b) then some (a - b) else none

def checkedMul (a b : Int) : Option Int :=
  if Fits (a * b) then some (a * b) else none

/-- `/`, which stops at a divisor of zero and at a quotient that does not fit. -/
def checkedDiv (a b : Int) : Option Int :=
  if b = 0 ∨ ¬ Fits (a.tdiv b) then none else some (a.tdiv b)

variable {x a b c : Int}

theorem checkedAdd_eq_some : checkedAdd a b = some c ↔ Fits (a + b) ∧ c = a + b := by
  unfold checkedAdd
  split <;> simp_all [eq_comm]

theorem checkedSub_eq_some : checkedSub a b = some c ↔ Fits (a - b) ∧ c = a - b := by
  unfold checkedSub
  split <;> simp_all [eq_comm]

theorem checkedMul_eq_some : checkedMul a b = some c ↔ Fits (a * b) ∧ c = a * b := by
  unfold checkedMul
  split <;> simp_all [eq_comm]

theorem bind_checkedAdd {β : Type} (f : Int → Option β) (h : Fits (a + b)) :
    (checkedAdd a b).bind f = f (a + b) := by
  rw [checkedAdd, if_pos h, Option.bind_some]

theorem bind_checkedSub {β : Type} (f : Int → Option β) (h : Fits (a - b)) :
    (checkedSub a b).bind f = f (a - b) := by
  rw [checkedSub, if_pos h, Option.bind_some]

theorem bind_checkedMul {β : Type} (f : Int → Option β) (h : Fits (a * b)) :
    (checkedMul a b).bind f = f (a * b) := by
  rw [checkedMul, if_pos h, Option.bind_some]

theorem bind_checkedAdd_eq_some {β : Type} {f : Int → Option β} {r : β} :
    (checkedAdd a b).bind f = some r ↔ Fits (a + b) ∧ f (a + b) = some r := by
  simp only [Option.bind_eq_some_iff, checkedAdd_eq_some]
  grind

theorem bind_checkedSub_eq_some {β : Type} {f : Int → Option β} {r : β} :
    (checkedSub a b).bind f = some r ↔ Fits (a - b) ∧ f (a - b) = some r := by
  simp only [Option.bind_eq_some_iff, checkedSub_eq_some]
  grind

theorem bind_checkedMul_eq_some {β : Type} {f : Int → Option β} {r : β} :
    (checkedMul a b).bind f = some r ↔ Fits (a * b) ∧ f (a * b) = some r := by
  simp only [Option.bind_eq_some_iff, checkedMul_eq_some]
  grind

theorem wrap_fits (x : Int) : Fits (wrap x) := by
  unfold Fits wrap
  omega

theorem wrap_of_fits (h : Fits x) : wrap x = x := by
  unfold Fits at h
  unfold wrap
  omega

theorem wrap_add_wrap_left : wrap (wrap a + b) = wrap (a + b) := by
  unfold wrap
  omega

theorem wrap_add_wrap_right : wrap (a + wrap b) = wrap (a + b) := by
  unfold wrap
  omega

theorem wrap_sub_wrap_left : wrap (wrap a - b) = wrap (a - b) := by
  unfold wrap
  omega

/-- Above the words by less than 2^64. -/
theorem wrap_of_le (h : 2 ^ 63 ≤ x) (h' : x < 2 ^ 63 + 2 ^ 64) : wrap x = x - 2 ^ 64 := by
  unfold wrap
  omega

theorem wrap_of_lt (h : x < -2 ^ 63) (h' : -2 ^ 63 - 2 ^ 64 ≤ x) : wrap x = x + 2 ^ 64 := by
  unfold wrap
  omega

end I64
