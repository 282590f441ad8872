import Mathlib.Tactic.Linarith
import Mathlib.Tactic.Ring
import Olive.CivilTime

/-! The conversions between timestamps and dates are inverse to each other, and follow the calendar. -/

namespace Olive

namespace CivilTime

open I64 Gregorian

section Quotients

variable {x n : Int}

/-- The quotient toward zero of a number moved down where it is negative is the floor. -/
theorem tdiv_floor (hn : 0 < n) : (if 0 ≤ x then x else x - (n - 1)).tdiv n = x / n := by
  split
  next hx => exact Int.tdiv_eq_ediv_of_nonneg hx
  next hx =>
    have hmod := Int.emod_nonneg x hn.ne'
    have hlt := Int.emod_lt_of_pos x hn
    have hdiv := Int.mul_ediv_add_emod x n
    have hneg : x - (n - 1) = -(n - 1 - x) := by ring
    have hquot : (n - 1 - x) / n = -(x / n) := by
      have h := Int.ediv_emod_unique hn (a := n - 1 - x) (r := n - 1 - x % n) (q := -(x / n))
      exact (h.mpr ⟨by rw [mul_neg]; linarith, by omega, by omega⟩).1
    rw [hneg, Int.neg_tdiv, Int.tdiv_eq_ediv_of_nonneg (by omega), hquot, neg_neg]

theorem tdiv_floor_of_ne (hn : 0 < n) (hx : x < 0) (hmod : x.tmod n ≠ 0) : x.tdiv n - 1 = x / n := by
  have hdvd : ¬n ∣ x := fun h => hmod (Int.tmod_eq_zero_of_dvd h)
  rw [Int.tdiv_eq_ediv, if_neg (by omega), Int.sign_eq_one_of_pos hn]
  omega

theorem tdiv_floor_of_eq (hmod : x.tmod n = 0) : x.tdiv n = x / n := by
  have hdvd : n ∣ x := Int.dvd_of_tmod_eq_zero hmod
  rw [Int.tdiv_eq_ediv, if_pos (.inr hdvd), add_zero]

theorem tmod_eq_zero_iff : x.tmod n = 0 ↔ x % n = 0 := by
  rw [← Int.dvd_iff_tmod_eq_zero, Int.dvd_iff_emod_eq_zero]

end Quotients

theorem isLeap_iff {year : Int} : isLeap year = true ↔ IsLeap year := by
  simp only [isLeap, Bool.or_eq_true, Bool.and_eq_true, beq_iff_eq, bne_iff_ne, ne_eq,
    tmod_eq_zero_iff, IsLeap]

theorem daysInMonth_eq {year month : Int} (hpos : 1 ≤ month) (hle : month ≤ 12) :
    daysInMonth year month = monthLength year month := by
  unfold daysInMonth monthLength
  simp only [isLeap_iff]
  split <;> split <;> omega

/-- Where a day of the 400 years stands: in century `c`, its four years `q`, their year `k`, on day
`s` from March on. -/
structure Cycle (doe yoe c q k s : Int) : Prop where
  day : doe = 36524 * c + 1461 * q + 365 * k + s
  year : yoe = 100 * c + 4 * q + k
  century : 0 ≤ c ∧ c ≤ 3
  fours : 0 ≤ q ∧ q ≤ 24
  years : 0 ≤ k ∧ k ≤ 3
  within : 0 ≤ s ∧ s ≤ 365
  leap : s = 365 → k = 3 ∧ (q < 24 ∨ c = 3)

def yearOfEra (doe : Int) : Int := (doe - doe / 1460 + doe / 36524 - doe / 146096) / 365

theorem yearOfEra_cycle {doe : Int} (h0 : 0 ≤ doe) (h1 : doe < 146097) :
    ∃ c q k s, Cycle doe (yearOfEra doe) c q k s := by
  unfold yearOfEra
  rcases Int.lt_or_eq_of_le (show doe ≤ 146096 by omega) with hlt | rfl
  · obtain ⟨c, hc⟩ : ∃ c, c = doe / 36524 := ⟨_, rfl⟩
    obtain ⟨q, hq⟩ : ∃ q, q = (doe - 36524 * c) / 1461 := ⟨_, rfl⟩
    obtain ⟨s, hs⟩ : ∃ s, s = doe - 36524 * c - 1461 * q := ⟨_, rfl⟩
    -- the quotient by 1460 is one more than that by 1461 only late in the four years
    obtain ⟨x, hx⟩ : ∃ x, doe / 1460 = 25 * c + q + x := ⟨doe / 1460 - 25 * c - q, by omega⟩
    have hx0 : 0 ≤ x := by omega
    have hx1 : x ≤ 1 := by omega
    have hlate : x = 1 → 1364 ≤ s := by omega
    have hlast : s = 1460 → x = 1 := by omega
    have hyoe : (doe - doe / 1460 + doe / 36524 - doe / 146096) / 365 =
        100 * c + 4 * q + (s - x) / 365 := by omega
    refine ⟨c, q, (s - x) / 365, s - 365 * ((s - x) / 365), ?_⟩
    constructor <;> omega
  · exact ⟨3, 24, 3, 365, by constructor <;> omega⟩

/-- The days from the first of March of year 0 to that of the year. -/
def marchStart (year : Int) : Int := 365 * year + year / 4 - year / 100 + year / 400

/-- The number of a date, counted from the first of March. -/
theorem number_march {date : Date} (hpos : 1 ≤ date.month) (hle : date.month ≤ 12) {y m : Int}
    (hy : y = if date.month ≤ 2 then date.year - 1 else date.year)
    (hm : m = if date.month ≤ 2 then date.month + 9 else date.month - 3) :
    date.number = marchStart y + (153 * m + 2) / 5 + date.day - 1 - 719468 := by
  obtain ⟨year, month, day⟩ := date
  have hyear := yearLength year
  simp only [yearStart, Date.number, daysBefore, marchStart] at *
  subst hy hm
  rcases month_cases hpos hle with rfl | rfl | rfl | rfl | rfl | rfl | rfl | rfl | rfl | rfl | rfl |
    rfl <;> by_cases hleap : IsLeap year <;> simp [hleap, monthStart] at hyear ⊢ <;> omega

/-- The date that the code computes for a day, in quotients that are floors. -/
def civilDate (days : Int) : Date :=
  let z := days + 719468
  let doe := z % 146097
  let yoe := yearOfEra doe
  let doy := doe - (365 * yoe + yoe / 4 - yoe / 100)
  let mp := (5 * doy + 2) / 153
  let month := if mp < 10 then mp + 3 else mp - 9
  let y := yoe + z / 146097 * 400
  ⟨if month ≤ 2 then y + 1 else y, month, doy - (153 * mp + 2) / 5 + 1⟩

theorem Cycle.quarters {doe yoe c q k s : Int} (h : Cycle doe yoe c q k s) : yoe / 4 = 25 * c + q := by
  have hyear := h.year
  have hyears := h.years
  omega

theorem Cycle.centuries {doe yoe c q k s : Int} (h : Cycle doe yoe c q k s) : yoe / 100 = c := by
  have hyear := h.year
  have hfours := h.fours
  have hyears := h.years
  omega

theorem Cycle.day_of_year {doe yoe c q k s : Int} (h : Cycle doe yoe c q k s) :
    doe - (365 * yoe + yoe / 4 - yoe / 100) = s := by
  rw [h.quarters, h.centuries, h.day, h.year]
  ring

theorem Cycle.marchStart {doe yoe c q k s : Int} (h : Cycle doe yoe c q k s) (era : Int) :
    marchStart (yoe + era * 400) = era * 146097 + doe - s := by
  have hyear := h.year
  have hcentury := h.century
  have hfours := h.fours
  have hyears := h.years
  have hquarters := h.quarters
  have hcenturies := h.centuries
  have hday := h.day_of_year
  have h4 : (yoe + era * 400) / 4 = yoe / 4 + 100 * era := by omega
  have h100 : (yoe + era * 400) / 100 = yoe / 100 + 4 * era := by omega
  have h400 : (yoe + era * 400) / 400 = era := by omega
  unfold CivilTime.marchStart
  rw [h4, h100, h400]
  omega

theorem Cycle.isLeap {doe yoe c q k s : Int} (h : Cycle doe yoe c q k s) (hs : s = 365) (era : Int) :
    IsLeap (yoe + era * 400 + 1) := by
  have hyear := h.year
  have hcentury := h.century
  have hfours := h.fours
  obtain ⟨hk, hlast⟩ := h.leap hs
  unfold IsLeap
  omega

/-- The month of a day, counted from March, and the day in it. -/
theorem march_month {s mp : Int} (h0 : 0 ≤ s) (h1 : s ≤ 365) (hmp : mp = (5 * s + 2) / 153) :
    (0 ≤ mp ∧ mp ≤ 11) ∧ (153 * mp + 2) / 5 ≤ s ∧
      s - (153 * mp + 2) / 5 < (if mp = 11 then if s = 365 then 29 else 28
        else if mp = 1 ∨ mp = 3 ∨ mp = 6 ∨ mp = 8 then 30 else 31) := by
  have hrange : 0 ≤ mp ∧ mp ≤ 11 := by omega
  refine ⟨hrange, by omega, ?_⟩
  obtain rfl | rfl | rfl | rfl | rfl | rfl | rfl | rfl | rfl | rfl | rfl | rfl : mp = 0 ∨ mp = 1 ∨
      mp = 2 ∨ mp = 3 ∨ mp = 4 ∨ mp = 5 ∨ mp = 6 ∨ mp = 7 ∨ mp = 8 ∨ mp = 9 ∨ mp = 10 ∨ mp = 11 := by
    omega
  all_goals simp only [Int.reduceEq, ↓reduceIte, or_false, or_true]
  all_goals omega

/-- The length of a month by its place from March on. -/
theorem monthLength_march {year month mp : Int} (hmp : 0 ≤ mp ∧ mp ≤ 11)
    (hmonth : month = if mp < 10 then mp + 3 else mp - 9) :
    monthLength year month = if mp = 11 then if IsLeap year then 29 else 28
      else if mp = 1 ∨ mp = 3 ∨ mp = 6 ∨ mp = 8 then 30 else 31 := by
  have h2 : month = 2 ↔ mp = 11 := by omega
  have h30 : month = 4 ∨ month = 6 ∨ month = 9 ∨ month = 11 ↔ mp = 1 ∨ mp = 3 ∨ mp = 6 ∨ mp = 8 := by
    omega
  unfold monthLength
  simp only [h2, h30]

theorem civilDate_spec (days : Int) : (civilDate days).Valid ∧ (civilDate days).number = days := by
  obtain ⟨era, hera⟩ : ∃ era, era = (days + 719468) / 146097 := ⟨_, rfl⟩
  obtain ⟨doe, hdoe⟩ : ∃ doe, doe = (days + 719468) % 146097 := ⟨_, rfl⟩
  have hdays : days = era * 146097 + doe - 719468 := by omega
  obtain ⟨c, q, k, s, hcycle⟩ := yearOfEra_cycle (show 0 ≤ doe by omega) (by omega)
  obtain ⟨yoe, hyoe⟩ : ∃ yoe, yoe = yearOfEra doe := ⟨_, rfl⟩
  rw [← hyoe] at hcycle
  obtain ⟨mp, hmp⟩ : ∃ mp, mp = (5 * s + 2) / 153 := ⟨_, rfl⟩
  obtain ⟨month, hmonth⟩ : ∃ month, month = if mp < 10 then mp + 3 else mp - 9 := ⟨_, rfl⟩
  obtain ⟨y, hy⟩ : ∃ y, y = yoe + era * 400 := ⟨_, rfl⟩
  have hdate : civilDate days =
      ⟨if month ≤ 2 then y + 1 else y, month, s - (153 * mp + 2) / 5 + 1⟩ := by
    simp only [civilDate, ← hdoe, ← hera, ← hyoe, hcycle.day_of_year, ← hmp, ← hmonth, ← hy]
  obtain ⟨hrange, hstart, hlength⟩ := march_month hcycle.within.1 hcycle.within.2 hmp
  have hleap := fun hs => hcycle.isLeap hs era
  have hmarch := hcycle.marchStart era
  rw [← hy] at hleap hmarch
  clear hcycle hdoe hera hyoe hy hmp
  have hpos : 1 ≤ month := by omega
  have hle : month ≤ 12 := by omega
  rw [hdate]
  refine ⟨⟨hpos, hle, by simp only; omega, ?_⟩, ?_⟩
  · show s - (153 * mp + 2) / 5 + 1 ≤ monthLength (if month ≤ 2 then y + 1 else y) month
    rw [monthLength_march hrange hmonth]
    by_cases h11 : mp = 11
    · rw [if_pos h11] at hlength ⊢
      rw [if_pos (show month ≤ 2 by omega)]
      by_cases hs : s = 365
      · rw [if_pos hs] at hlength
        rw [if_pos (hleap hs)]
        omega
      · rw [if_neg hs] at hlength
        split <;> omega
    · rw [if_neg h11] at hlength ⊢
      omega
  · have hyear : y = if month ≤ 2 then (if month ≤ 2 then y + 1 else y) - 1
        else if month ≤ 2 then y + 1 else y := by
      split <;> omega
    have hplace : mp = if month ≤ 2 then month + 9 else month - 3 := by omega
    rw [number_march hpos hle hyear hplace, hmarch]
    show era * 146097 + doe - s + (153 * mp + 2) / 5 + (s - (153 * mp + 2) / 5 + 1) - 1 - 719468 = days
    omega

section Conversions

variable {ts : Int}

/-- The date and the time of day of a timestamp. -/
def civil (ts : Int) : DateTime :=
  let date := civilDate (ts / 86400)
  ⟨date.year, date.month, date.day, ts % 86400 / 3600, ts % 86400 % 3600 / 60, ts % 86400 % 60⟩

/-- The conversion never leaves `i64`. -/
theorem unixToYmdHms_eq (h : I64.Fits ts) : unixToYmdHms ts = some (civil ts) := by
  obtain ⟨hlo, hhi⟩ := h
  have hsec := Int.emod_nonneg ts (show (86400 : Int) ≠ 0 by decide)
  have hday : (if ts < 0 ∧ ts.tmod 86400 ≠ 0 then checkedSub (ts.tdiv 86400) 1
      else some (ts.tdiv 86400)) = some (ts / 86400) := by
    split
    next hneg =>
      have hfloor := tdiv_floor_of_ne (by decide) hneg.1 hneg.2
      rw [checkedSub, if_pos (by rw [hfloor]; exact ⟨by omega, by omega⟩), hfloor]
    next hnot =>
      by_cases hts : 0 ≤ ts
      · rw [Int.tdiv_eq_ediv_of_nonneg hts]
      · rw [tdiv_floor_of_eq (by by_contra hmod; exact hnot ⟨by omega, hmod⟩)]
  obtain ⟨z, hz⟩ : ∃ z, z = ts / 86400 + 719468 := ⟨_, rfl⟩
  have hera : (if 0 ≤ z then some z else checkedSub z 146096) =
      some (if 0 ≤ z then z else z - (146097 - 1)) := by
    split
    · rfl
    · rw [checkedSub, if_pos ⟨by omega, by omega⟩]
      rfl
  obtain ⟨era, he⟩ : ∃ era, era = z / 146097 := ⟨_, rfl⟩
  obtain ⟨doe, hdoe⟩ : ∃ doe, doe = z - era * 146097 := ⟨_, rfl⟩
  have hmod : doe = z % 146097 := by omega
  obtain ⟨c, q, k, s, hcycle⟩ := yearOfEra_cycle (show 0 ≤ doe by omega) (by omega)
  obtain ⟨yoe, hyoe⟩ : ∃ yoe, yoe = yearOfEra doe := ⟨_, rfl⟩
  rw [← hyoe] at hcycle
  have hyears := hcycle.year
  have hcentury := hcycle.century
  have hfours := hcycle.fours
  have hk := hcycle.years
  have hs := hcycle.within
  have hdoy := hcycle.day_of_year
  have hquarters := hcycle.quarters
  have hcenturies := hcycle.centuries
  obtain ⟨mp, hmp⟩ : ∃ mp, mp = (5 * s + 2) / 153 := ⟨_, rfl⟩
  obtain ⟨hrange, hstart, -⟩ := march_month hs.1 hs.2 hmp
  obtain ⟨month, hmonth⟩ : ∃ month, month = if mp < 10 then mp + 3 else mp - 9 := ⟨_, rfl⟩
  have hmonth' : (if mp < 10 then checkedAdd mp 3 else checkedSub mp 9) = some month := by
    rw [hmonth]
    split
    · rw [checkedAdd, if_pos ⟨by omega, by omega⟩]
    · rw [checkedSub, if_pos ⟨by omega, by omega⟩]
  obtain ⟨y, hy⟩ : ∃ y, y = yoe + era * 400 := ⟨_, rfl⟩
  have hyear : (if month ≤ 2 then checkedAdd y 1 else some y) =
      some (if month ≤ 2 then y + 1 else y) := by
    split
    · rw [checkedAdd, if_pos ⟨by omega, by omega⟩]
    · rfl
  have hcivil : civil ts = ⟨if month ≤ 2 then y + 1 else y, month, s - (153 * mp + 2) / 5 + 1,
      ts % 86400 / 3600, ts % 86400 % 3600 / 60, ts % 86400 % 60⟩ := by
    simp only [civil, civilDate, ← hz, ← he, ← hmod, ← hyoe, hdoy, ← hmp, ← hmonth, ← hy]
  have hnonneg : 0 ≤ doe ∧ doe < 146097 := by omega
  clear hcycle
  unfold unixToYmdHms
  rw [hday, Option.bind_eq_bind, Option.bind_some, bind_checkedAdd _ ⟨by omega, by omega⟩, ← hz, hera,
    Option.bind_some, tdiv_floor (by decide), ← he, bind_checkedMul _ ⟨by omega, by omega⟩,
    bind_checkedSub _ ⟨by omega, by omega⟩, ← hdoe]
  rw [Int.tdiv_eq_ediv_of_nonneg hnonneg.1, bind_checkedSub _ ⟨by omega, by omega⟩,
    Int.tdiv_eq_ediv_of_nonneg hnonneg.1, bind_checkedAdd _ ⟨by omega, by omega⟩,
    Int.tdiv_eq_ediv_of_nonneg hnonneg.1, bind_checkedSub _ ⟨by omega, by omega⟩]
  rw [show (doe - doe / 1460 + doe / 36524 - doe / 146096).tdiv 365 = yoe by
    rw [hyoe, yearOfEra, Int.tdiv_eq_ediv_of_nonneg (by omega)]]
  dsimp only
  rw [bind_checkedMul _ ⟨by omega, by omega⟩, bind_checkedAdd _ ⟨by omega, by omega⟩, ← hy,
    bind_checkedMul _ ⟨by omega, by omega⟩, Int.tdiv_eq_ediv_of_nonneg (by omega),
    bind_checkedAdd _ ⟨by omega, by omega⟩, Int.tdiv_eq_ediv_of_nonneg (by omega),
    bind_checkedSub _ ⟨by omega, by omega⟩, bind_checkedSub _ ⟨by omega, by omega⟩, hdoy,
    bind_checkedMul _ ⟨by omega, by omega⟩, bind_checkedAdd _ ⟨by omega, by omega⟩]
  rw [show (5 * s + 2).tdiv 153 = mp by rw [hmp, Int.tdiv_eq_ediv_of_nonneg (by omega)]]
  rw [bind_checkedMul _ ⟨by omega, by omega⟩, bind_checkedAdd _ ⟨by omega, by omega⟩,
    Int.tdiv_eq_ediv_of_nonneg (by omega), bind_checkedSub _ ⟨by omega, by omega⟩,
    bind_checkedAdd _ ⟨by omega, by omega⟩, hmonth', Option.bind_some, hyear, Option.bind_some, hcivil,
    Int.tdiv_eq_ediv_of_nonneg hsec, Int.tmod_eq_emod_of_nonneg hsec,
    Int.tmod_eq_emod_of_nonneg hsec, Int.tdiv_eq_ediv_of_nonneg (by omega)]
  rfl

def DateTime.date (dt : DateTime) : Date := ⟨dt.year, dt.month, dt.day⟩

structure DateTime.Valid (dt : DateTime) : Prop where
  date : dt.date.Valid
  hour : 0 ≤ dt.hour ∧ dt.hour < 24
  minute : 0 ≤ dt.minute ∧ dt.minute < 60
  second : 0 ≤ dt.second ∧ dt.second < 60

/-- The seconds since the start of 1 January 1970. -/
def DateTime.seconds (dt : DateTime) : Int :=
  dt.date.number * 86400 + dt.hour * 3600 + dt.minute * 60 + dt.second

theorem civil_valid (ts : Int) : (civil ts).Valid where
  date := (civilDate_spec (ts / 86400)).1
  hour := by
    show 0 ≤ ts % 86400 / 3600 ∧ ts % 86400 / 3600 < 24
    omega
  minute := by
    show 0 ≤ ts % 86400 % 3600 / 60 ∧ ts % 86400 % 3600 / 60 < 60
    omega
  second := by
    show 0 ≤ ts % 86400 % 60 ∧ ts % 86400 % 60 < 60
    omega

theorem civil_seconds (ts : Int) : (civil ts).seconds = ts := by
  have hnumber : (civil ts).date.number = ts / 86400 := (civilDate_spec (ts / 86400)).2
  unfold DateTime.seconds
  rw [hnumber]
  simp only [civil]
  omega

/-- The days up to the first of March of a year, by eras of 400 years. -/
theorem marchStart_era (y : Int) : marchStart y =
    y / 400 * 146097 + ((y - y / 400 * 400) * 365 + (y - y / 400 * 400) / 4 -
      (y - y / 400 * 400) / 100) := by
  unfold marchStart
  omega

/-- What the conversion back computes from the year and the month, counted from March. -/
theorem ymdToUnix_march {year month day h min sec r : Int}
    (hr : ymdToUnix year month day h min sec = some r) {y m : Int}
    (hy : y = if month ≤ 2 then year - 1 else year)
    (hm : m = if month ≤ 2 then month + 9 else month - 3) :
    I64.Fits r ∧ r =
      (marchStart y + ((153 * m + 2).tdiv 5 + day - 1) - 719468) * 86400 + h * 3600 + min * 60 + sec := by
  unfold ymdToUnix at hr
  rw [Option.bind_eq_bind] at hr
  obtain ⟨m', hm', hr⟩ := Option.bind_eq_some_iff.mp hr
  obtain ⟨y', hy', hr⟩ := Option.bind_eq_some_iff.mp hr
  obtain ⟨low, hlow, hr⟩ := Option.bind_eq_some_iff.mp hr
  have hmEq : m' = m := by
    rw [hm]
    split at hm' <;> rename_i h2
    · rw [if_pos h2]
      exact (checkedAdd_eq_some.mp hm').2
    · rw [if_neg h2]
      exact (checkedSub_eq_some.mp hm').2
  have hyEq : y' = y := by
    rw [hy]
    split at hy' <;> rename_i h2
    · rw [if_pos h2]
      exact (checkedSub_eq_some.mp hy').2
    · rw [if_neg h2]
      exact (Option.some.inj hy').symm
  have hlowEq : low = if 0 ≤ y' then y' else y' - (400 - 1) := by
    split at hlow <;> rename_i h0
    · rw [if_pos h0]
      exact (Option.some.inj hlow).symm
    · rw [if_neg h0]
      exact (checkedSub_eq_some.mp hlow).2
  rw [hlowEq, tdiv_floor (by decide), hyEq, hmEq] at hr
  obtain ⟨-, hr⟩ := bind_checkedMul_eq_some.mp hr
  obtain ⟨-, hr⟩ := bind_checkedSub_eq_some.mp hr
  obtain ⟨-, hr⟩ := bind_checkedMul_eq_some.mp hr
  obtain ⟨-, hr⟩ := bind_checkedAdd_eq_some.mp hr
  obtain ⟨-, hr⟩ := bind_checkedAdd_eq_some.mp hr
  obtain ⟨-, hr⟩ := bind_checkedSub_eq_some.mp hr
  obtain ⟨-, hr⟩ := bind_checkedMul_eq_some.mp hr
  have hyoe : 0 ≤ y - y / 400 * 400 := by omega
  rw [Int.tdiv_eq_ediv_of_nonneg hyoe] at hr
  obtain ⟨-, hr⟩ := bind_checkedAdd_eq_some.mp hr
  rw [Int.tdiv_eq_ediv_of_nonneg hyoe] at hr
  obtain ⟨-, hr⟩ := bind_checkedSub_eq_some.mp hr
  obtain ⟨-, hr⟩ := bind_checkedAdd_eq_some.mp hr
  obtain ⟨-, hr⟩ := bind_checkedMul_eq_some.mp hr
  obtain ⟨-, hr⟩ := bind_checkedAdd_eq_some.mp hr
  obtain ⟨-, hr⟩ := bind_checkedSub_eq_some.mp hr
  obtain ⟨-, hr⟩ := bind_checkedMul_eq_some.mp hr
  obtain ⟨-, hr⟩ := bind_checkedMul_eq_some.mp hr
  obtain ⟨-, hr⟩ := bind_checkedAdd_eq_some.mp hr
  obtain ⟨-, hr⟩ := bind_checkedMul_eq_some.mp hr
  obtain ⟨-, hr⟩ := bind_checkedAdd_eq_some.mp hr
  obtain ⟨hfits, hr⟩ := checkedAdd_eq_some.mp hr
  refine ⟨hr ▸ hfits, ?_⟩
  rw [hr, marchStart_era]
  ring

theorem ymdToUnix_seconds {dt : DateTime} (hpos : 1 ≤ dt.month) (hle : dt.month ≤ 12) {r : Int}
    (h : ymdToUnix dt.year dt.month dt.day dt.hour dt.minute dt.second = some r) :
    r = dt.seconds := by
  obtain ⟨y, hy⟩ : ∃ y, y = if dt.month ≤ 2 then dt.year - 1 else dt.year := ⟨_, rfl⟩
  obtain ⟨m, hm⟩ : ∃ m, m = if dt.month ≤ 2 then dt.month + 9 else dt.month - 3 := ⟨_, rfl⟩
  have hr := (ymdToUnix_march h hy hm).2
  rw [Int.tdiv_eq_ediv_of_nonneg (by omega)] at hr
  rw [hr, DateTime.seconds, number_march (show 1 ≤ dt.date.month from hpos) hle hy hm]
  simp only [DateTime.date]
  ring

theorem ymdToUnix_fits {year month day h min sec r : Int}
    (hr : ymdToUnix year month day h min sec = some r) : I64.Fits r :=
  (ymdToUnix_march hr rfl rfl).1

/-- Where the days in seconds and the seconds stay in `i64`, so does what leads to them. -/
theorem ymdToUnix_eq {dt : DateTime} (h : dt.Valid) (hlo : -2 ^ 63 ≤ dt.date.number * 86400)
    (hhi : dt.seconds < 2 ^ 63) :
    ymdToUnix dt.year dt.month dt.day dt.hour dt.minute dt.second = some dt.seconds := by
  suffices hsome : ∃ r, ymdToUnix dt.year dt.month dt.day dt.hour dt.minute dt.second = some r by
    obtain ⟨r, hr⟩ := hsome
    rw [hr, ymdToUnix_seconds h.date.month_pos h.date.month_le hr]
  obtain ⟨year, month, day, hour, minute, second⟩ := dt
  obtain ⟨y, hy⟩ : ∃ y, y = if month ≤ 2 then year - 1 else year := ⟨_, rfl⟩
  obtain ⟨m, hm⟩ : ∃ m, m = if month ≤ 2 then month + 9 else month - 3 := ⟨_, rfl⟩
  have hnumber := number_march h.date.month_pos h.date.month_le hy hm
  unfold DateTime.seconds at hhi
  obtain ⟨⟨hpos, hle, hday, hlen⟩, hhour, hminute, hsecond⟩ := h
  have hshort := monthLength_le year month
  simp only [DateTime.date] at hpos hle hday hlen hhour hminute hsecond hlo hhi hnumber ⊢
  have hday31 : day ≤ 31 := hlen.trans hshort
  have hm' : (if month ≤ 2 then checkedAdd month 9 else checkedSub month 3) = some m := by
    rw [hm]
    split
    · rw [checkedAdd, if_pos ⟨by omega, by omega⟩]
    · rw [checkedSub, if_pos ⟨by omega, by omega⟩]
  have hmlo : 0 ≤ m := by omega
  have hmhi : m ≤ 11 := by omega
  obtain ⟨days, hdays⟩ : ∃ days, days = Date.number ⟨year, month, day⟩ := ⟨_, rfl⟩
  rw [← hdays] at hnumber hlo hhi
  have hylo : -300000000001 ≤ y := by
    unfold marchStart at hnumber
    omega
  have hyhi : y ≤ 300000000000 := by
    unfold marchStart at hnumber
    omega
  have hy' : (if month ≤ 2 then checkedSub year 1 else some year) = some y := by
    rw [hy]
    split
    · rw [checkedSub, if_pos ⟨by omega, by omega⟩]
    · rfl
  have hera : (if 0 ≤ y then some y else checkedSub y 399) =
      some (if 0 ≤ y then y else y - (400 - 1)) := by
    split
    · rfl
    · rw [checkedSub, if_pos ⟨by omega, by omega⟩]
      rfl
  rw [marchStart_era] at hnumber
  obtain ⟨era, he⟩ : ∃ era, era = y / 400 := ⟨_, rfl⟩
  rw [← he] at hnumber
  obtain ⟨yoe, hyoe⟩ : ∃ yoe, yoe = y - era * 400 := ⟨_, rfl⟩
  rw [← hyoe] at hnumber
  have hyoe0 : 0 ≤ yoe := by omega
  have hyoe1 : yoe < 400 := by omega
  refine ⟨days * 86400 + hour * 3600 + minute * 60 + second, ?_⟩
  clear hy hm hlen hshort hdays
  unfold ymdToUnix
  rw [hm', Option.bind_eq_bind, Option.bind_some, hy', Option.bind_some, hera, Option.bind_some,
    tdiv_floor (by decide), ← he]
  dsimp only
  rw [bind_checkedMul _ ⟨by omega, by omega⟩, bind_checkedSub _ ⟨by omega, by omega⟩, ← hyoe,
    bind_checkedMul _ ⟨by omega, by omega⟩, bind_checkedAdd _ ⟨by omega, by omega⟩,
    Int.tdiv_eq_ediv_of_nonneg (by omega), bind_checkedAdd _ ⟨by omega, by omega⟩,
    bind_checkedSub _ ⟨by omega, by omega⟩, bind_checkedMul _ ⟨by omega, by omega⟩,
    Int.tdiv_eq_ediv_of_nonneg hyoe0, bind_checkedAdd _ ⟨by omega, by omega⟩,
    Int.tdiv_eq_ediv_of_nonneg hyoe0, bind_checkedSub _ ⟨by omega, by omega⟩]
  obtain ⟨doe, hdoe⟩ : ∃ doe, doe =
      yoe * 365 + yoe / 4 - yoe / 100 + ((153 * m + 2) / 5 + day - 1) := ⟨_, rfl⟩
  have hdoe0 : 0 ≤ doe := by omega
  have hdoe1 : doe < 200000 := by omega
  have hsum : era * 146097 + doe - 719468 = days := by omega
  rw [bind_checkedAdd _ ⟨by omega, by omega⟩, ← hdoe, bind_checkedMul _ ⟨by omega, by omega⟩,
    bind_checkedAdd _ ⟨by omega, by omega⟩, bind_checkedSub _ ⟨by omega, by omega⟩, hsum]
  clear hsum hdoe hdoe0 hdoe1 hnumber hyoe he hyoe0 hyoe1
  rw [bind_checkedMul _ ⟨by omega, by omega⟩, bind_checkedMul _ ⟨by omega, by omega⟩,
    bind_checkedAdd _ ⟨by omega, by omega⟩, bind_checkedMul _ ⟨by omega, by omega⟩,
    bind_checkedAdd _ ⟨by omega, by omega⟩]
  exact if_pos ⟨by omega, by omega⟩

end Conversions

end CivilTime

end Olive
