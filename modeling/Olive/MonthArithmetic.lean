import Olive.CivilTimeText

/-! Timestamps moved by months and by years. A month counted from zero and moved that is negative has
its years taken toward zero, where the month is the Euclidean remainder. -/

namespace Olive

namespace CivilTime

open I64 Gregorian

/-- `as f64` of a word: the nearest multiple of the weight of the last of 53 digits, or the even one
of two. -/
def asF64 (n : Int) : Int :=
  let ulp : Int := 2 ^ (n.natAbs.log2 - 52)
  let q := n / ulp
  let r := n % ulp
  if 2 * r < ulp ∨ 2 * r = ulp ∧ q % 2 = 0 then q * ulp else (q + 1) * ulp

/-- `as i64` of a whole number. -/
def asI64 (x : Int) : Int :=
  max (-2 ^ 63) (min x (2 ^ 63 - 1))

/-- `olive_datetime_add_months` of the whole seconds of a timestamp. -/
def datetimeAddMonths (ts months : Int) : Option Int := do
  let dt ← unixToYmdHms ts
  let month ← checkedAdd dt.month months
  let year ← checkedAdd dt.year ((← checkedSub month 1).tdiv 12)
  let month ← checkedAdd ((← checkedSub month 1) % 12) 1
  let clampedDay := min dt.day (daysInMonth year month)
  return asF64 (← ymdToUnix year month clampedDay dt.hour dt.minute dt.second)

def datetimeAddYears (ts years : Int) : Option Int := do
  let dt ← unixToYmdHms ts
  let newYear ← checkedAdd dt.year years
  let clampedDay := min dt.day (daysInMonth newYear dt.month)
  return asF64 (← ymdToUnix newYear dt.month clampedDay dt.hour dt.minute dt.second)

def datetimeStartOfMonth (ts : Int) : Option Int := do
  let dt ← unixToYmdHms ts
  return asF64 (← ymdToUnix dt.year dt.month 1 0 0 0)

def DateTime.monthIndex (dt : DateTime) : Int :=
  12 * dt.year + dt.month - 1

/-- The date in a month that is at most the last, at the same time of day. -/
structure SameClamped (dt out : DateTime) : Prop where
  day : out.day = min dt.day (daysInMonth out.year out.month)
  hour : out.hour = dt.hour
  minute : out.minute = dt.minute
  second : out.second = dt.second

structure MovedMonths (dt : DateTime) (months : Int) (out : DateTime) : Prop
    extends SameClamped dt out where
  index : out.monthIndex = dt.monthIndex + months

structure MovedYears (dt : DateTime) (years : Int) (out : DateTime) : Prop
    extends SameClamped dt out where
  year : out.year = dt.year + years
  month : out.month = dt.month

/-- Where a date and time of day is after so many months. -/
def DateTime.plusMonths (dt : DateTime) (months : Int) : DateTime :=
  let year := (dt.monthIndex + months) / 12
  let month := (dt.monthIndex + months) % 12 + 1
  { dt with year, month, day := min dt.day (monthLength year month) }

/-- The years of the months moved are the same toward zero as downward. -/
def Carries (dt : DateTime) (months : Int) : Prop :=
  0 ≤ dt.month - 1 + months ∨ 12 ∣ dt.month - 1 + months

instance (dt : DateTime) (months : Int) : Decidable (Carries dt months) :=
  inferInstanceAs (Decidable (_ ∨ _))

/-- The seconds stay what they are as an `f64`. -/
def Exact (dt : DateTime) : Prop :=
  asI64 (asF64 dt.seconds) = dt.seconds

instance (dt : DateTime) : Decidable (Exact dt) :=
  inferInstanceAs (Decidable (_ = _))

/-- Where the code is after so many months: a year late where they do not carry. -/
def DateTime.landing (dt : DateTime) (months : Int) : DateTime :=
  dt.plusMonths (if Carries dt months then months else months + 12)

section Floats

variable {n : Int}

theorem asF64_near (h : I64.Fits n) : n - 2048 ≤ asF64 n ∧ asF64 n ≤ n + 2048 := by
  obtain ⟨hlo, hhi⟩ := h
  have hlog : n.natAbs.log2 ≤ 63 := by
    have hbound : n.natAbs ≤ 2 ^ 63 := by omega
    by_cases h0 : n.natAbs = 0
    · rw [h0]
      decide
    · have hlt := (Nat.log2_lt h0 (k := 64)).mpr (by omega)
      omega
  have hpow : (2 : Int) ^ (n.natAbs.log2 - 52) ≤ 2 ^ 11 :=
    pow_le_pow_right₀ (by decide) (by omega)
  have hpos : (0 : Int) < 2 ^ (n.natAbs.log2 - 52) := pow_pos (by decide) _
  unfold asF64
  obtain ⟨ulp, hulp⟩ : ∃ ulp : Int, ulp = 2 ^ (n.natAbs.log2 - 52) := ⟨_, rfl⟩
  rw [← hulp] at hpow hpos ⊢
  have hr := Int.emod_nonneg n hpos.ne'
  have hrlt := Int.emod_lt_of_pos n hpos
  have hsum := Int.mul_ediv_add_emod n ulp
  dsimp only
  split
  · rw [Int.mul_comm]
    omega
  · rw [Int.add_mul, Int.mul_comm (n / ulp)]
    omega

theorem asI64_near (h : I64.Fits n) : n - 2048 ≤ asI64 (asF64 n) ∧ asI64 (asF64 n) ≤ n + 2048 := by
  have hnear := asF64_near h
  obtain ⟨hlo, hhi⟩ := h
  unfold asI64
  omega

theorem asI64_fits (x : Int) : I64.Fits (asI64 x) := by
  unfold I64.Fits asI64
  omega

end Floats

section Moves

variable {ts months years : Int} {dt out : DateTime}

theorem DateTime.Valid.plusMonths (h : dt.Valid) (months : Int) : (dt.plusMonths months).Valid where
  date := {
    month_pos := by
      show 1 ≤ (dt.monthIndex + months) % 12 + 1
      omega
    month_le := by
      show (dt.monthIndex + months) % 12 + 1 ≤ 12
      omega
    day_pos := by
      have hday : 1 ≤ dt.day := h.date.day_pos
      have hpos := monthLength_pos ((dt.monthIndex + months) / 12)
        ((dt.monthIndex + months) % 12 + 1)
      show 1 ≤ min dt.day _
      omega
    day_le := Int.min_le_right _ _ }
  hour := h.hour
  minute := h.minute
  second := h.second

theorem movedMonths_iff (hout : out.Valid) : MovedMonths dt months out ↔ out = dt.plusMonths months := by
  have hpos : 1 ≤ out.month := hout.date.month_pos
  have hle : out.month ≤ 12 := hout.date.month_le
  constructor
  · rintro ⟨⟨hday, hhour, hminute, hsecond⟩, hindex⟩
    rw [daysInMonth_eq hpos hle] at hday
    have hyear : out.year = (dt.monthIndex + months) / 12 := by
      rw [← hindex, DateTime.monthIndex]
      omega
    have hmonth : out.month = (dt.monthIndex + months) % 12 + 1 := by
      rw [← hindex, DateTime.monthIndex]
      omega
    unfold DateTime.plusMonths
    dsimp only
    rw [← hyear, ← hmonth, ← hday, ← hhour, ← hminute, ← hsecond]
  · rintro rfl
    refine ⟨⟨?_, rfl, rfl, rfl⟩, ?_⟩
    · rw [daysInMonth_eq hpos hle]
      rfl
    · show 12 * ((dt.monthIndex + months) / 12) + ((dt.monthIndex + months) % 12 + 1) - 1 = _
      omega

theorem movedYears_iff (hdt : dt.Valid) (hout : out.Valid) :
    MovedYears dt years out ↔ out = dt.plusMonths (12 * years) := by
  have hpos : 1 ≤ dt.month := hdt.date.month_pos
  have hle : dt.month ≤ 12 := hdt.date.month_le
  have hpos' : 1 ≤ out.month := hout.date.month_pos
  have hle' : out.month ≤ 12 := hout.date.month_le
  rw [← movedMonths_iff hout]
  constructor
  · rintro ⟨hsame, hyear, hmonth⟩
    refine ⟨hsame, ?_⟩
    unfold DateTime.monthIndex
    omega
  · rintro ⟨hsame, hindex⟩
    unfold DateTime.monthIndex at hindex
    exact ⟨hsame, by omega, by omega⟩

/-- A date a year later is most of a year later. -/
theorem plusMonths_year_later (h : dt.Valid) (months : Int) :
    (dt.plusMonths months).seconds + 300 * 86400 ≤ (dt.plusMonths (months + 12)).seconds := by
  have hday : 1 ≤ dt.day := h.date.day_pos
  obtain ⟨y, hy⟩ : ∃ y, y = (dt.monthIndex + months) / 12 := ⟨_, rfl⟩
  obtain ⟨mo, hmo⟩ : ∃ mo, mo = (dt.monthIndex + months) % 12 + 1 := ⟨_, rfl⟩
  have hnext : (dt.monthIndex + (months + 12)) / 12 = y + 1 := by omega
  have hsame : (dt.monthIndex + (months + 12)) % 12 + 1 = mo := by omega
  unfold DateTime.plusMonths
  dsimp only
  rw [hnext, hsame, ← hy, ← hmo]
  have hyear := yearLength y
  have hleap : 365 ≤ (if IsLeap y then (366 : Int) else 365) := by split <;> omega
  have hpos := monthLength_pos y mo
  have hpos' := monthLength_pos (y + 1) mo
  have hle := monthLength_le y mo
  have hle' := monthLength_le (y + 1) mo
  simp only [DateTime.seconds, DateTime.date, Date.number, daysBefore]
  have hadd : (if 2 < mo ∧ IsLeap y then (1 : Int) else 0) ≤ 1 := by split <;> omega
  have hadd' : 0 ≤ (if 2 < mo ∧ IsLeap (y + 1) then (1 : Int) else 0) := by split <;> omega
  omega

theorem datetimeAddMonths_value {r : Int} (hts : I64.Fits ts)
    (h : datetimeAddMonths ts months = some r) :
    I64.Fits ((civil ts).landing months).seconds ∧ r = asF64 ((civil ts).landing months).seconds := by
  obtain ⟨dt, hdt⟩ : ∃ dt, dt = civil ts := ⟨_, rfl⟩
  have hvalid := civil_valid ts
  unfold datetimeAddMonths at h
  rw [unixToYmdHms_eq hts, Option.bind_eq_bind, Option.bind_some] at h
  rw [← hdt] at hvalid h ⊢
  have hpos : 1 ≤ dt.month := hvalid.date.month_pos
  have hle : dt.month ≤ 12 := hvalid.date.month_le
  obtain ⟨-, h⟩ := bind_checkedAdd_eq_some.mp h
  obtain ⟨-, h⟩ := bind_checkedSub_eq_some.mp h
  obtain ⟨-, h⟩ := bind_checkedAdd_eq_some.mp h
  obtain ⟨-, h⟩ := bind_checkedSub_eq_some.mp h
  obtain ⟨-, h⟩ := bind_checkedAdd_eq_some.mp h
  dsimp only at h
  obtain ⟨seconds, hseconds, hr⟩ := Option.bind_eq_some_iff.mp h
  obtain ⟨moved, hmoved⟩ : ∃ moved, moved = if Carries dt months then months else months + 12 :=
    ⟨_, rfl⟩
  have hquot : (dt.month + months - 1).tdiv 12 = (dt.month + moved - 1) / 12 ∧
      (moved = months ∨ moved = months + 12) := by
    split at hmoved <;> rename_i hc <;> unfold Carries at hc <;> subst hmoved
    · rw [Int.tdiv_eq_ediv, if_pos (by omega), Int.add_zero]
      exact ⟨rfl, .inl rfl⟩
    · rw [Int.tdiv_eq_ediv, if_neg (by omega), Int.sign_eq_one_of_pos (by decide)]
      exact ⟨by omega, .inr rfl⟩
  unfold DateTime.landing
  rw [← hmoved]
  have hyear : dt.year + (dt.month + months - 1).tdiv 12 = (dt.plusMonths moved).year := by
    rw [hquot.1]
    show _ = (12 * dt.year + dt.month - 1 + moved) / 12
    omega
  have hmonth : (dt.month + months - 1) % 12 + 1 = (dt.plusMonths moved).month := by
    show _ = (12 * dt.year + dt.month - 1 + moved) % 12 + 1
    omega
  have hplus := hvalid.plusMonths moved
  have hmpos : 1 ≤ (dt.plusMonths moved).month := hplus.date.month_pos
  have hmle : (dt.plusMonths moved).month ≤ 12 := hplus.date.month_le
  rw [hyear, hmonth, daysInMonth_eq hmpos hmle] at hseconds
  have hvalue : seconds = (dt.plusMonths moved).seconds := ymdToUnix_seconds hmpos hmle hseconds
  rw [← hvalue]
  exact ⟨ymdToUnix_fits hseconds, (Option.some.inj hr).symm⟩

/-- Where the seconds are exact the code is at the landing. -/
theorem datetimeAddMonths_landing {r : Int} (hts : I64.Fits ts)
    (h : datetimeAddMonths ts months = some r) (he : Exact ((civil ts).landing months)) :
    civil (asI64 r) = (civil ts).landing months := by
  unfold Exact at he
  rw [(datetimeAddMonths_value hts h).2, he]
  exact civil_of_seconds ((civil_valid ts).plusMonths _)

theorem datetimeAddYears_value {r : Int} (hts : I64.Fits ts) (h : datetimeAddYears ts years = some r) :
    I64.Fits ((civil ts).plusMonths (12 * years)).seconds ∧
      r = asF64 ((civil ts).plusMonths (12 * years)).seconds := by
  obtain ⟨dt, hdt⟩ : ∃ dt, dt = civil ts := ⟨_, rfl⟩
  have hvalid := civil_valid ts
  unfold datetimeAddYears at h
  rw [unixToYmdHms_eq hts, Option.bind_eq_bind, Option.bind_some] at h
  rw [← hdt] at hvalid h ⊢
  have hpos : 1 ≤ dt.month := hvalid.date.month_pos
  have hle : dt.month ≤ 12 := hvalid.date.month_le
  obtain ⟨-, h⟩ := bind_checkedAdd_eq_some.mp h
  dsimp only at h
  obtain ⟨seconds, hseconds, hr⟩ := Option.bind_eq_some_iff.mp h
  have hyear : dt.year + years = (dt.plusMonths (12 * years)).year := by
    show _ = (12 * dt.year + dt.month - 1 + 12 * years) / 12
    omega
  have hmonth : dt.month = (dt.plusMonths (12 * years)).month := by
    show _ = (12 * dt.year + dt.month - 1 + 12 * years) % 12 + 1
    omega
  have hmpos : 1 ≤ (dt.plusMonths (12 * years)).month := hmonth ▸ hpos
  have hmle : (dt.plusMonths (12 * years)).month ≤ 12 := hmonth ▸ hle
  rw [daysInMonth_eq hpos hle, hyear, hmonth] at hseconds
  have hvalue : seconds = (dt.plusMonths (12 * years)).seconds :=
    ymdToUnix_seconds hmpos hmle hseconds
  rw [← hvalue]
  exact ⟨ymdToUnix_fits hseconds, (Option.some.inj hr).symm⟩

/-- The months are moved where they carry and the seconds are exact. -/
theorem datetimeAddMonths_moved_iff {r : Int} (hts : I64.Fits ts)
    (h : datetimeAddMonths ts months = some r) :
    MovedMonths (civil ts) months (civil (asI64 r)) ↔
      Carries (civil ts) months ∧ Exact ((civil ts).plusMonths months) := by
  have hvalid := civil_valid ts
  rw [movedMonths_iff (civil_valid _)]
  obtain ⟨hfits, hr⟩ := datetimeAddMonths_value hts h
  unfold DateTime.landing at hfits hr
  by_cases hc : Carries (civil ts) months
  · rw [if_pos hc] at hfits hr
    constructor
    · intro hout
      refine ⟨hc, ?_⟩
      unfold Exact
      rw [← hr, ← civil_seconds (asI64 r), hout]
    · rintro ⟨-, hexact⟩
      unfold Exact at hexact
      rw [hr, hexact, civil_of_seconds (hvalid.plusMonths _)]
  · rw [if_neg hc] at hfits hr
    refine iff_of_false (fun hout => ?_) (fun hboth => hc hboth.1)
    have hlater := plusMonths_year_later hvalid months
    have hnear := (asI64_near hfits).1
    rw [← hr, ← civil_seconds (asI64 r), hout] at hnear
    omega

theorem datetimeAddYears_moved_iff {r : Int} (hts : I64.Fits ts)
    (h : datetimeAddYears ts years = some r) :
    MovedYears (civil ts) years (civil (asI64 r)) ↔ Exact ((civil ts).plusMonths (12 * years)) := by
  have hvalid := civil_valid ts
  obtain ⟨hfits, hr⟩ := datetimeAddYears_value hts h
  rw [movedYears_iff hvalid (civil_valid _)]
  constructor
  · intro hout
    unfold Exact
    rw [← hr, ← civil_seconds (asI64 r), hout]
  · intro hexact
    unfold Exact at hexact
    rw [hr, hexact, civil_of_seconds (hvalid.plusMonths _)]

theorem monthIndex_plusMonths (dt : DateTime) (months : Int) :
    (dt.plusMonths months).monthIndex = dt.monthIndex + months := by
  show 12 * ((dt.monthIndex + months) / 12) + ((dt.monthIndex + months) % 12 + 1) - 1 = _
  omega

/-- The months that two moves are late by. -/
theorem datetimeAddMonths_twice {a b r₁ r₂ : Int} (hts : I64.Fits ts)
    (h₁ : datetimeAddMonths ts a = some r₁) (h₂ : datetimeAddMonths (asI64 r₁) b = some r₂)
    (he₁ : Exact ((civil ts).landing a)) (he₂ : Exact (((civil ts).landing a).landing b)) :
    ∃ late, (civil (asI64 r₂)).monthIndex = (civil ts).monthIndex + (a + b) + late ∧
      (late = 0 ∧ Carries (civil ts) a ∧ Carries ((civil ts).plusMonths a) b ∨
        12 ≤ late ∧ late ≤ 24 ∧ ¬(Carries (civil ts) a ∧ Carries ((civil ts).plusMonths a) b)) := by
  have hfirst := datetimeAddMonths_landing hts h₁ he₁
  rw [← hfirst] at he₂
  have hsecond := datetimeAddMonths_landing (asI64_fits r₁) h₂ he₂
  rw [hsecond, hfirst]
  unfold DateTime.landing
  rw [monthIndex_plusMonths, monthIndex_plusMonths]
  by_cases hc₁ : Carries (civil ts) a
  · rw [if_pos hc₁]
    by_cases hc₂ : Carries ((civil ts).plusMonths a) b
    · rw [if_pos hc₂]
      exact ⟨0, by omega, .inl ⟨rfl, hc₁, hc₂⟩⟩
    · rw [if_neg hc₂]
      exact ⟨12, by omega, .inr ⟨by decide, by decide, fun hboth => hc₂ hboth.2⟩⟩
  · rw [if_neg hc₁]
    split
    · exact ⟨12, by omega, .inr ⟨by decide, by decide, fun hboth => hc₁ hboth.1⟩⟩
    · exact ⟨24, by omega, .inr ⟨by decide, by decide, fun hboth => hc₁ hboth.1⟩⟩

theorem firstOfMonth_valid {year month : Int} (hpos : 1 ≤ month) (hle : month ≤ 12) :
    Date.Valid ⟨year, month, 1⟩ := by
  have hlen := monthLength_pos year month
  exact ⟨hpos, hle, Int.le_refl 1, by dsimp only; omega⟩

theorem firstOfMonth_year_later {year month year' month' : Int} (hpos : 1 ≤ month)
    (hle : month ≤ 12) (hpos' : 1 ≤ month') (hle' : month' ≤ 12)
    (h : 12 * year + month + 12 ≤ 12 * year' + month') :
    Date.number ⟨year, month, 1⟩ + 300 ≤ Date.number ⟨year', month', 1⟩ := by
  have hyear := yearLength year
  have hleap : 365 ≤ (if IsLeap year then (366 : Int) else 365) := by split <;> omega
  have hadd : (if 2 < month ∧ IsLeap year then (1 : Int) else 0) ≤ 1 := by split <;> omega
  have hadd' : 0 ≤ (if 2 < month ∧ IsLeap (year + 1) then (1 : Int) else 0) := by split <;> omega
  have hnext : Date.number ⟨year, month, 1⟩ + 300 ≤ Date.number ⟨year + 1, month, 1⟩ := by
    simp only [Date.number, daysBefore]
    omega
  have hmono : Date.number ⟨year + 1, month, 1⟩ ≤ Date.number ⟨year', month', 1⟩ := by
    by_cases heq : year + 1 = year' ∧ month = month'
    · rw [heq.1, heq.2]
    · apply Int.le_of_lt
      apply (firstOfMonth_valid hpos hle).number_lt (firstOfMonth_valid hpos' hle')
      simp only [Date.Before]
      omega
  exact hnext.trans hmono

theorem Date.number_first (year month day : Int) :
    Date.number ⟨year, month, day⟩ = Date.number ⟨year, month, 1⟩ + (day - 1) := by
  simp only [Date.number]
  omega

theorem seconds_firstOfMonth (year month : Int) :
    DateTime.seconds ⟨year, month, 1, 0, 0, 0⟩ = Date.number ⟨year, month, 1⟩ * 86400 := by
  simp [DateTime.seconds, DateTime.date]

theorem ymdToUnix_firstOfMonth {year month r : Int} (hpos : 1 ≤ month) (hle : month ≤ 12)
    (h : ymdToUnix year month 1 0 0 0 = some r) : r = Date.number ⟨year, month, 1⟩ * 86400 := by
  obtain ⟨dt, hdt⟩ : ∃ dt : DateTime, dt = ⟨year, month, 1, 0, 0, 0⟩ := ⟨_, rfl⟩
  have hvalue : ymdToUnix dt.year dt.month dt.day dt.hour dt.minute dt.second = some r := by
    rw [hdt]
    exact h
  have hseconds := ymdToUnix_seconds (by rw [hdt]; exact hpos) (by rw [hdt]; exact hle) hvalue
  rw [hseconds, hdt, seconds_firstOfMonth]

/-- The first second of the month of a timestamp. -/
theorem datetimeStartOfMonth_value {r : Int} (hts : I64.Fits ts) (hdt : civil ts = dt)
    (h : datetimeStartOfMonth ts = some r) :
    r - 2048 ≤ Date.number ⟨dt.year, dt.month, 1⟩ * 86400 ∧
      Date.number ⟨dt.year, dt.month, 1⟩ * 86400 ≤ r + 2048 := by
  have hvalid := civil_valid ts
  unfold datetimeStartOfMonth at h
  rw [unixToYmdHms_eq hts, hdt, Option.bind_eq_bind, Option.bind_some] at h
  rw [hdt] at hvalid
  obtain ⟨seconds, hvalue, hr⟩ := Option.bind_eq_some_iff.mp h
  have hpos : 1 ≤ dt.month := hvalid.date.month_pos
  have hle : dt.month ≤ 12 := hvalid.date.month_le
  have hseconds := ymdToUnix_firstOfMonth hpos hle hvalue
  have hnear := asF64_near (ymdToUnix_fits hvalue)
  rw [Option.some.inj hr, hseconds] at hnear
  omega

theorem datetimeStartOfMonth_isSome (hts : I64.Fits ts) (hdt : civil ts = dt)
    (h : -2 ^ 63 ≤ Date.number ⟨dt.year, dt.month, 1⟩ * 86400) :
    ∃ r, datetimeStartOfMonth ts = some r := by
  have hnumber : (civil ts).date.number = ts / 86400 := (civilDate_spec (ts / 86400)).2
  have hvalid := civil_valid ts
  rw [hdt] at hnumber hvalid
  obtain ⟨hpos, hle, hday, -⟩ := hvalid.date
  simp only [DateTime.date] at hpos hle hday hnumber
  rw [Date.number_first] at hnumber
  have hzero : (0 : Int) ≤ 0 ∧ (0 : Int) < 24 ∧ (0 : Int) < 60 := by decide
  have hfirst : DateTime.Valid ⟨dt.year, dt.month, 1, 0, 0, 0⟩ :=
    ⟨firstOfMonth_valid hpos hle, ⟨hzero.1, hzero.2.1⟩, ⟨hzero.1, hzero.2.2⟩, ⟨hzero.1, hzero.2.2⟩⟩
  obtain ⟨hlo, hhi⟩ := hts
  have hbound : DateTime.seconds ⟨dt.year, dt.month, 1, 0, 0, 0⟩ < 2 ^ 63 := by
    rw [seconds_firstOfMonth]
    omega
  have hvalue := ymdToUnix_eq hfirst h hbound
  dsimp only at hvalue
  unfold datetimeStartOfMonth
  rw [unixToYmdHms_eq ⟨hlo, hhi⟩, hdt, Option.bind_eq_bind, Option.bind_some, hvalue]
  exact ⟨_, rfl⟩

/-- A year or more later the month starts at another second. -/
theorem datetimeStartOfMonth_ne {later : Int} (hts : I64.Fits ts) (hlater : I64.Fits later)
    (h : (civil ts).monthIndex + 12 ≤ (civil later).monthIndex) :
    datetimeStartOfMonth later ≠ datetimeStartOfMonth ts := by
  have hnumber : (civil ts).date.number = ts / 86400 := (civilDate_spec (ts / 86400)).2
  have hvalid := civil_valid ts
  have hvalid' := civil_valid later
  obtain ⟨dt, hdt⟩ : ∃ dt, civil ts = dt := ⟨_, rfl⟩
  obtain ⟨dt', hdt'⟩ : ∃ dt', civil later = dt' := ⟨_, rfl⟩
  rw [hdt] at hnumber hvalid h
  rw [hdt'] at hvalid' h
  obtain ⟨hpos, hle, hday, hlen⟩ := hvalid.date
  obtain ⟨hpos', hle', -, -⟩ := hvalid'.date
  have hshort := monthLength_le dt.year dt.month
  simp only [DateTime.date] at hpos hle hday hlen hpos' hle' hnumber
  rw [Date.number_first] at hnumber
  unfold DateTime.monthIndex at h
  have hgap : Date.number ⟨dt.year, dt.month, 1⟩ + 300 ≤ Date.number ⟨dt'.year, dt'.month, 1⟩ :=
    firstOfMonth_year_later hpos hle hpos' hle' (by omega)
  have hlo := hts.1
  obtain ⟨r, hr⟩ := datetimeStartOfMonth_isSome hlater hdt' (by omega)
  intro heq
  have hnear := datetimeStartOfMonth_value hlater hdt' hr
  have hnear' := datetimeStartOfMonth_value hts hdt (heq.symm.trans hr)
  omega

end Moves

section Statement

variable {ts : Int}

/-- Moving by months is exact where the months carry and the seconds survive as an `f64`, and
moving by years where these do. Two moves add up, and two opposite ones lead back to the start of
the month, where both carry. -/
theorem month_arithmetic (hts : I64.Fits ts) {dt : DateTime} (hdt : unixToYmdHms ts = some dt) :
    (∀ months r, datetimeAddMonths ts months = some r → ∃ out,
      unixToYmdHms (asI64 r) = some out ∧
      (MovedMonths dt months out ↔ Carries dt months ∧ Exact (dt.plusMonths months))) ∧
    (∀ years r, datetimeAddYears ts years = some r → ∃ out,
      unixToYmdHms (asI64 r) = some out ∧
      (MovedYears dt years out ↔ Exact (dt.plusMonths (12 * years)))) ∧
    (∀ a b r₁ r₂, datetimeAddMonths ts a = some r₁ → datetimeAddMonths (asI64 r₁) b = some r₂ →
      Exact (dt.landing a) → Exact ((dt.landing a).landing b) → ∃ out,
      unixToYmdHms (asI64 r₂) = some out ∧
      (out.monthIndex = dt.monthIndex + (a + b) ↔ Carries dt a ∧ Carries (dt.plusMonths a) b)) ∧
    (∀ months r₁ r₂, datetimeAddMonths ts months = some r₁ →
      datetimeAddMonths (asI64 r₁) (-months) = some r₂ →
      Exact (dt.landing months) → Exact ((dt.landing months).landing (-months)) →
      (datetimeStartOfMonth (asI64 r₂) = datetimeStartOfMonth ts ↔
        Carries dt months ∧ Carries (dt.plusMonths months) (-months))) := by
  rw [unixToYmdHms_eq hts] at hdt
  obtain rfl := Option.some.inj hdt
  refine ⟨?_, ?_, ?_, ?_⟩
  · intro months r h
    exact ⟨_, unixToYmdHms_eq (asI64_fits r), datetimeAddMonths_moved_iff hts h⟩
  · intro years r h
    exact ⟨_, unixToYmdHms_eq (asI64_fits r), datetimeAddYears_moved_iff hts h⟩
  · intro a b r₁ r₂ h₁ h₂ he₁ he₂
    refine ⟨_, unixToYmdHms_eq (asI64_fits r₂), ?_⟩
    obtain ⟨late, hindex, ⟨hlate, hc₁, hc₂⟩ | ⟨hlate, -, hnot⟩⟩ :=
      datetimeAddMonths_twice hts h₁ h₂ he₁ he₂
    · exact iff_of_true (by omega) ⟨hc₁, hc₂⟩
    · exact iff_of_false (by omega) hnot
  · intro months r₁ r₂ h₁ h₂ he₁ he₂
    obtain ⟨late, hindex, ⟨hlate, hc₁, hc₂⟩ | ⟨hlate, -, hnot⟩⟩ :=
      datetimeAddMonths_twice hts h₁ h₂ he₁ he₂
    · refine iff_of_true ?_ ⟨hc₁, hc₂⟩
      obtain ⟨hpos, hle, -, -⟩ := (civil_valid ts).date
      obtain ⟨hpos', hle', -, -⟩ := (civil_valid (asI64 r₂)).date
      simp only [DateTime.date] at hpos hle hpos' hle'
      unfold DateTime.monthIndex at hindex
      have hyear : (civil (asI64 r₂)).year = (civil ts).year := by omega
      have hmonth : (civil (asI64 r₂)).month = (civil ts).month := by omega
      unfold datetimeStartOfMonth
      rw [unixToYmdHms_eq (asI64_fits r₂), unixToYmdHms_eq hts, Option.bind_eq_bind,
        Option.bind_some, Option.bind_some, hyear, hmonth]
    · exact iff_of_false (datetimeStartOfMonth_ne hts (asI64_fits r₂) (by omega)) hnot

/-- The last of January 2024 and a month is the last of February. -/
theorem month_arithmetic_january : unixToYmdHms 1706659200 = some ⟨2024, 1, 31, 0, 0, 0⟩ ∧
    datetimeAddMonths 1706659200 1 = some 1709164800 ∧ ∃ out,
      unixToYmdHms 1709164800 = some out ∧ MovedMonths ⟨2024, 1, 31, 0, 0, 0⟩ 1 out := by
  have hcivil : unixToYmdHms 1706659200 = some ⟨2024, 1, 31, 0, 0, 0⟩ := by decide
  have hadd : datetimeAddMonths 1706659200 1 = some 1709164800 := by decide
  obtain ⟨out, hout, hmoved⟩ := (month_arithmetic (by decide) hcivil).1 1 _ hadd
  exact ⟨hcivil, hadd, out, hout, hmoved.mpr ⟨by decide, by decide⟩⟩

/-- A month before 15 January 2024 the code is on 15 December of the same year. -/
theorem month_arithmetic_backward_fails : ¬∀ ts months r dt out, I64.Fits ts → I64.Fits months →
    unixToYmdHms ts = some dt → datetimeAddMonths ts months = some r →
      unixToYmdHms (asI64 r) = some out → MovedMonths dt months out := by
  intro hall
  have hmoved := hall 1705276800 (-1) 1734220800 ⟨2024, 1, 15, 0, 0, 0⟩ ⟨2024, 12, 15, 0, 0, 0⟩
    (by decide) (by decide) (by decide) (by decide) (by decide)
  exact absurd hmoved.index (by decide)

end Statement

end CivilTime

end Olive
