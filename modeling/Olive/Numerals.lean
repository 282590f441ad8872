import Mathlib.Data.Nat.Digits.Defs

/-! Numerals of a base: lists of digits without leading zeros, written by a table of characters. -/

namespace Numerals

variable {base n : Nat} {digit : Nat → Char} {text : List Char}

/-- The digits of a number from the highest place on; zero has the digit 0 alone. -/
structure IsNumeral (base : Nat) (digit : Nat → Char) (n : Nat) (text : List Char) : Prop where
  written : ∃ places : List Nat, text = places.map digit ∧ (∀ d ∈ places, d < base) ∧
    Nat.ofDigits base places.reverse = n ∧ places ≠ [] ∧ (places.head? = some 0 → places = [0])

theorem isNumeral_toDigits (hb : 1 < base) (n : Nat) :
    IsNumeral base Nat.digitChar n (Nat.toDigits base n) := by
  induction n using Nat.strongRecOn with
  | ind n ih =>
    by_cases hlt : n < base
    · rw [Nat.toDigits_of_lt_base hlt]
      refine ⟨[n], rfl, by simpa using hlt, by simp, by simp, fun h0 => ?_⟩
      simpa using h0
    · have hle : base ≤ n := by omega
      have hpos : 0 < n := by omega
      have hquot : n / base ≠ 0 := by
        have := Nat.div_pos hle (by omega)
        omega
      obtain ⟨places, htext, hplaces, hvalue, hne, hlead⟩ := ih (n / base) (Nat.div_lt_self hpos hb)
      rw [Nat.toDigits_of_base_le hb hle, htext]
      refine ⟨places ++ [n % base], by simp, ?_, ?_, by simp, fun h0 => ?_⟩
      · intro d hd
        rcases List.mem_append.mp hd with hd | hd
        · exact hplaces d hd
        · rw [List.mem_singleton.mp hd]
          exact Nat.mod_lt n (by omega)
      · rw [List.reverse_append, List.reverse_singleton, List.singleton_append, Nat.ofDigits_cons,
          hvalue]
        exact Nat.mod_add_div n base
      · have hone := hlead (by
          cases places with
          | nil => exact absurd rfl hne
          | cons d rest => exact h0)
        rw [hone] at hvalue
        exact absurd hvalue.symm (by simpa using hquot)

/-- The characters of the digits may be exchanged. -/
theorem IsNumeral.map (f : Char → Char) (h : IsNumeral base digit n text) :
    IsNumeral base (f ∘ digit) n (text.map f) := by
  obtain ⟨places, rfl, hrest⟩ := h
  exact ⟨places, by rw [List.map_map], hrest⟩

theorem IsNumeral.not_mem {c : Char} (h : IsNumeral base digit n text)
    (hc : ∀ d < base, digit d ≠ c) : c ∉ text := by
  obtain ⟨places, rfl, hlt, -⟩ := h
  intro hmem
  obtain ⟨d, hd, heq⟩ := List.mem_map.mp hmem
  exact hc d (hlt d hd) heq

end Numerals
