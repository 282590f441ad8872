import Mathlib.Algebra.Order.Ring.Int
import Mathlib.Data.List.Basic

/-! The proleptic Gregorian calendar: its dates in order, and the number of each, counted from
1 January 1970. -/

namespace Gregorian

def IsLeap (year : Int) : Prop :=
  (year % 4 = 0 ∧ year % 100 ≠ 0) ∨ year % 400 = 0

instance (year : Int) : Decidable (IsLeap year) :=
  inferInstanceAs (Decidable (_ ∨ _))

def monthLength (year month : Int) : Int :=
  if month = 2 then if IsLeap year then 29 else 28
  else if month = 4 ∨ month = 6 ∨ month = 9 ∨ month = 11 then 30 else 31

structure Date where
  year : Int
  month : Int
  day : Int
  deriving DecidableEq, Repr

structure Date.Valid (date : Date) : Prop where
  month_pos : 1 ≤ date.month
  month_le : date.month ≤ 12
  day_pos : 1 ≤ date.day
  day_le : date.day ≤ monthLength date.year date.month

/-- The day after. -/
def Date.next (date : Date) : Date :=
  if date.day < monthLength date.year date.month then { date with day := date.day + 1 }
  else if date.month < 12 then ⟨date.year, date.month + 1, 1⟩
  else ⟨date.year + 1, 1, 1⟩

/-- Dates in order: by the year, then the month, then the day. -/
def Date.Before (a b : Date) : Prop :=
  a.year < b.year ∨ a.year = b.year ∧ (a.month < b.month ∨ a.month = b.month ∧ a.day < b.day)

/-- The days of a common year before its months. -/
def monthStart (month : Int) : Int :=
  if month ≤ 1 then 0 else if month = 2 then 31 else if month = 3 then 59 else if month = 4 then 90
  else if month = 5 then 120 else if month = 6 then 151 else if month = 7 then 181
  else if month = 8 then 212 else if month = 9 then 243 else if month = 10 then 273
  else if month = 11 then 304 else 334

/-- The days before a month in its year. -/
def daysBefore (year month : Int) : Int :=
  monthStart month + if 2 < month ∧ IsLeap year then 1 else 0

/-- The days from 1 January of year 1 to 1 January of a year. -/
def yearStart (year : Int) : Int :=
  365 * (year - 1) + (year - 1) / 4 - (year - 1) / 100 + (year - 1) / 400

/-- The number of a date; 1 January 1970 has the number 0. -/
def Date.number (date : Date) : Int :=
  yearStart date.year - 719162 + daysBefore date.year date.month + (date.day - 1)

theorem number_epoch : Date.number ⟨1970, 1, 1⟩ = 0 := by decide

theorem monthLength_pos (year month : Int) : 28 ≤ monthLength year month := by
  unfold monthLength
  split
  · split <;> omega
  · split <;> omega

theorem monthLength_le (year month : Int) : monthLength year month ≤ 31 := by
  unfold monthLength
  split
  · split <;> omega
  · split <;> omega

/-- A month of the year, by cases. -/
theorem month_cases {month : Int} (hpos : 1 ≤ month) (hle : month ≤ 12) :
    month = 1 ∨ month = 2 ∨ month = 3 ∨ month = 4 ∨ month = 5 ∨ month = 6 ∨ month = 7 ∨ month = 8 ∨
      month = 9 ∨ month = 10 ∨ month = 11 ∨ month = 12 := by
  omega

/-- The next month starts after all the days of this one. -/
theorem daysBefore_next (year : Int) {month : Int} (hpos : 1 ≤ month) (hlt : month < 12) :
    daysBefore year (month + 1) = daysBefore year month + monthLength year month := by
  unfold daysBefore monthStart monthLength
  rcases month_cases hpos hlt.le with rfl | rfl | rfl | rfl | rfl | rfl | rfl | rfl | rfl | rfl | rfl |
    rfl <;> by_cases hleap : IsLeap year <;> simp [hleap]
  all_goals omega

theorem yearLength (year : Int) :
    yearStart (year + 1) = yearStart year + if IsLeap year then 366 else 365 := by
  unfold yearStart
  by_cases hleap : IsLeap year
  · rw [if_pos hleap]
    unfold IsLeap at hleap
    omega
  · rw [if_neg hleap]
    unfold IsLeap at hleap
    omega

theorem daysBefore_december (year : Int) :
    daysBefore year 12 + 31 = if IsLeap year then 366 else 365 := by
  unfold daysBefore monthStart
  by_cases hleap : IsLeap year <;> simp [hleap]

/-- Every day has the number after that of the day before it. -/
theorem Date.Valid.number_next {date : Date} (h : date.Valid) :
    date.next.number = date.number + 1 := by
  obtain ⟨year, month, day⟩ := date
  have hday := h.day_le
  have hpos := h.month_pos
  have hle := h.month_le
  simp only at hday hpos hle
  unfold Date.next
  split
  next => simp only [Date.number]; omega
  next hlast =>
    split
    next hmonth =>
      have hnext := daysBefore_next year hpos hmonth
      simp only [Date.number] at hlast ⊢
      omega
    next hmonth =>
      obtain rfl : month = 12 := by simp only at hmonth; omega
      have hdec := daysBefore_december year
      have hyear := yearLength year
      have hjan : daysBefore (year + 1) 1 = 0 := by simp [daysBefore, monthStart]
      have hlen : monthLength year 12 = 31 := by simp [monthLength]
      simp only [Date.number, hjan, hlen] at hlast hday ⊢
      omega

theorem Date.Valid.next {date : Date} (h : date.Valid) : date.next.Valid := by
  obtain ⟨year, month, day⟩ := date
  obtain ⟨hpos, hle, hday, _⟩ := h
  simp only at hpos hle hday
  unfold Date.next
  split
  next hlt => exact ⟨hpos, hle, by simp only; omega, by simp only at hlt ⊢; omega⟩
  next =>
    split
    next hlt =>
      have hlen := monthLength_pos year (month + 1)
      simp only at hlt
      exact ⟨by simp only; omega, by simp only; omega, by simp only; omega, by simp only; omega⟩
    next =>
      have hlen := monthLength_pos (year + 1) 1
      exact ⟨by simp only; omega, by simp only; omega, by simp only; omega, by simp only; omega⟩

theorem yearStart_mono {a b : Int} (h : a < b) :
    yearStart a + (if IsLeap a then 366 else 365) ≤ yearStart b := by
  rw [← yearLength]
  unfold yearStart
  omega

theorem daysBefore_mono (year : Int) {a b : Int} (hpos : 1 ≤ a) (hle : b ≤ 12) (h : a < b) :
    daysBefore year a + monthLength year a ≤ daysBefore year b := by
  rw [← daysBefore_next year hpos (by omega)]
  induction b, h using Int.leInduction with
  | base => exact Int.le_refl _
  | succ b hb ih =>
    have hnext := daysBefore_next year (show 1 ≤ b by omega) (by omega)
    have hlen := monthLength_pos year b
    have hle' := ih (by omega)
    omega

/-- A date stands within its year. -/
theorem Date.Valid.day_of_year {date : Date} (h : date.Valid) :
    0 ≤ daysBefore date.year date.month + (date.day - 1) ∧
      daysBefore date.year date.month + (date.day - 1) < if IsLeap date.year then 366 else 365 := by
  obtain ⟨hpos, hle, hday, hlen⟩ := h
  have hdec := daysBefore_december date.year
  have hdecLength : monthLength date.year 12 = 31 := by simp [monthLength]
  have hnonneg : 0 ≤ daysBefore date.year date.month := by
    unfold daysBefore monthStart
    omega
  rcases Int.lt_or_eq_of_le hle with hlt | heq
  · have hmono := daysBefore_mono date.year hpos (Int.le_refl 12) hlt
    omega
  · rw [heq] at hlen hnonneg ⊢
    omega

/-- An earlier date has a smaller number. -/
theorem Date.Valid.number_lt {a b : Date} (ha : a.Valid) (hb : b.Valid) (h : a.Before b) :
    a.number < b.number := by
  have hina := ha.day_of_year
  have hinb := hb.day_of_year
  unfold Date.number
  rcases h with hyear | ⟨hyear, hmonth | ⟨hmonth, hday⟩⟩
  · have hmono := yearStart_mono hyear
    omega
  · have hmono := daysBefore_mono a.year ha.month_pos hb.month_le hmonth
    have hlen := ha.day_le
    have hpos := hb.day_pos
    rw [← hyear]
    omega
  · rw [← hyear, ← hmonth]
    omega

theorem Date.before_trichotomy (a b : Date) : a.Before b ∨ a = b ∨ b.Before a := by
  obtain ⟨y, m, d⟩ := a
  obtain ⟨y', m', d'⟩ := b
  simp only [Date.Before, Date.mk.injEq]
  omega

theorem Date.Valid.before_of_number_lt {a b : Date} (ha : a.Valid) (hb : b.Valid)
    (h : a.number < b.number) : a.Before b := by
  rcases Date.before_trichotomy a b with hbefore | rfl | hafter
  · exact hbefore
  · omega
  · have hgt := hb.number_lt ha hafter
    omega

theorem Date.Valid.eq_of_number {a b : Date} (ha : a.Valid) (hb : b.Valid)
    (h : a.number = b.number) : a = b := by
  rcases Date.before_trichotomy a b with hbefore | heq | hafter
  · have hlt := ha.number_lt hb hbefore
    omega
  · exact heq
  · have hgt := hb.number_lt ha hafter
    omega

end Gregorian
