import Mathlib.Algebra.Order.Ring.Int
import Mathlib.Tactic.Positivity
import Mathlib.Tactic.Ring

/-! Multiplication, division and remainder by a power of two as shifts and masks of bit vectors. -/

namespace PowerOfTwo

variable {w k : Nat} {x c : BitVec w}

theorem ctz_twoPow (h : k < w) : (BitVec.twoPow w k).ctz.toNat = k := by
  have hne : BitVec.twoPow w k ≠ 0#w := by
    intro heq
    have hbit := congrArg (fun b : BitVec w => b.getLsbD k) heq
    simp [h] at hbit
  have hbit := BitVec.getLsbD_true_ctz_of_ne_zero hne
  simp only [BitVec.getLsbD_twoPow, Bool.and_eq_true, decide_eq_true_eq] at hbit
  exact hbit.2.symm

/-- A power of two has its exponent for the number of its trailing zeros. -/
theorem eq_twoPow (h : c.toNat.isPowerOfTwo) :
    c = BitVec.twoPow w c.ctz.toNat ∧ c.ctz.toNat < w := by
  obtain ⟨k, hk⟩ := h
  have hlt : k < w := by
    have := c.isLt
    rw [hk] at this
    exact (Nat.pow_lt_pow_iff_right (by omega)).mp this
  have heq : c = BitVec.twoPow w k := by
    apply BitVec.eq_of_toNat_eq
    rw [hk, BitVec.toNat_twoPow_of_lt hlt]
  rw [heq, ctz_twoPow hlt]
  exact ⟨rfl, hlt⟩

theorem umod_twoPow (h : k < w) : x % BitVec.twoPow w k = x &&& (BitVec.twoPow w k - 1#w) := by
  apply BitVec.eq_of_toNat_eq
  have hone : (1#w).toNat = 1 := by
    rw [BitVec.toNat_ofNat, Nat.mod_eq_of_lt (Nat.one_lt_two_pow (by omega))]
  have hsub : (BitVec.twoPow w k - 1#w).toNat = 2 ^ k - 1 := by
    rw [BitVec.toNat_sub_of_le, BitVec.toNat_twoPow_of_lt h, hone]
    rw [BitVec.le_def, BitVec.toNat_twoPow_of_lt h, hone]
    exact Nat.one_le_two_pow
  rw [BitVec.toNat_umod, BitVec.toNat_and, hsub, BitVec.toNat_twoPow_of_lt h,
    Nat.and_two_pow_sub_one_eq_mod]

theorem tdiv_eq_ediv_iff {a p : Int} (hp : 0 < p) : a.tdiv p = a / p ↔ 0 ≤ a ∨ p ∣ a := by
  rw [Int.tdiv_eq_ediv, Int.sign_eq_one_of_pos hp]
  split_ifs with h
  · simp [h]
  · simp [h]

theorem tmod_eq_emod_iff {a p : Int} (hp : 0 < p) : a.tmod p = a % p ↔ 0 ≤ a ∨ p ∣ a := by
  rw [Int.tmod_eq_emod]
  split_ifs with h
  · simp [h]
  · simp only [h, iff_false]
    omega

theorem toInt_twoPow (h : k + 1 < w) : (BitVec.twoPow w k).toInt = 2 ^ k := by
  rw [BitVec.toInt_twoPow, if_neg (by omega), if_neg (by omega)]

theorem sdiv_twoPow_toInt (h : k + 1 < w) :
    (x.sdiv (BitVec.twoPow w k)).toInt = x.toInt.tdiv (2 ^ k) := by
  rw [BitVec.toInt_sdiv_of_ne_or_ne, toInt_twoPow h]
  right
  intro heq
  have hint := congrArg BitVec.toInt heq
  have hpos : (0 : Int) < 2 ^ k := by positivity
  rw [toInt_twoPow h, BitVec.neg_one_eq_allOnes, BitVec.toInt_allOnes, if_pos (by omega)] at hint
  omega

/-- Truncating division is the arithmetic shift where nothing negative is rounded. -/
theorem sdiv_twoPow_iff (h : k + 1 < w) :
    x.sdiv (BitVec.twoPow w k) = x.sshiftRight k ↔ 0 ≤ x.toInt ∨ 2 ^ k ∣ x.toInt := by
  rw [← BitVec.toInt_inj, sdiv_twoPow_toInt h, BitVec.toInt_sshiftRight,
    Int.shiftRight_eq_div_pow]
  exact_mod_cast tdiv_eq_ediv_iff (by positivity)

theorem mask_toInt (h : k + 1 < w) :
    (x &&& (BitVec.twoPow w k - 1#w)).toInt = x.toInt % 2 ^ k := by
  rw [← umod_twoPow (by omega)]
  have hsmall : x.toNat % 2 ^ k < 2 ^ k := Nat.mod_lt _ (by positivity)
  have hle : 2 * 2 ^ k ≤ 2 ^ w := by
    rw [← pow_succ']
    exact Nat.pow_le_pow_right (by omega) (by omega)
  have hnat : (x % BitVec.twoPow w k).toNat = x.toNat % 2 ^ k := by
    rw [BitVec.toNat_umod, BitVec.toNat_twoPow_of_lt (by omega)]
  rw [BitVec.toInt_eq_toNat_of_lt (by omega), hnat, BitVec.toInt_eq_toNat_bmod]
  have hdvd : ((2 ^ k : Nat) : Int) ∣ ((2 ^ w : Nat) : Int) := by
    exact_mod_cast Nat.pow_dvd_pow 2 (by omega)
  rw [show (2 : Int) ^ k = ((2 ^ k : Nat) : Int) by push_cast; rfl, Int.natCast_mod]
  have hcong := (Int.dvd_self_sub_bmod (x := (x.toNat : Int)) (m := 2 ^ w))
  exact (Int.emod_emod_of_dvd _ (dvd_refl _)).symm.trans (by
    rw [Int.emod_emod_of_dvd _ (dvd_refl _)]
    exact Int.emod_eq_emod_iff_emod_sub_eq_zero.mpr
      (Int.emod_eq_zero_of_dvd (hdvd.trans (by exact_mod_cast hcong))))

theorem srem_twoPow_iff (h : k + 1 < w) :
    x.srem (BitVec.twoPow w k) = x &&& (BitVec.twoPow w k - 1#w) ↔
      0 ≤ x.toInt ∨ 2 ^ k ∣ x.toInt := by
  rw [← BitVec.toInt_inj, BitVec.toInt_srem, toInt_twoPow h, mask_toInt h]
  exact tmod_eq_emod_iff (by positivity)

end PowerOfTwo
