import Olive.CivilTimeSound

/-! The text of a timestamp reads back as the timestamp, and the days of the week and of the year
follow the calendar. -/

namespace Olive

namespace CivilTime

open I64 Gregorian

/-- The last digits of a number. -/
def lastDigits : Nat → Nat → List Char
  | 0, _ => []
  | width + 1, n => lastDigits width (n / 10) ++ [Nat.digitChar (n % 10)]

def lastDigitBytes : Nat → Nat → List UInt8
  | 0, _ => []
  | width + 1, n => lastDigitBytes width (n / 10) ++ [UInt8.ofNat (48 + n % 10)]

section Digits

variable {width n : Nat}

@[simp] theorem length_lastDigitBytes : (lastDigitBytes width n).length = width := by
  induction width generalizing n with
  | zero => rfl
  | succ width ih =>
    rw [lastDigitBytes, List.length_append, ih]
    rfl

theorem zeroPadded_eq (hpos : 0 < width) (h : n < 10 ^ width) :
    zeroPadded width n = lastDigits width n := by
  have hshape : ∀ {width m : Nat}, zeroPadded width m =
      List.replicate (width - (Nat.toDigits 10 m).length) '0' ++ Nat.toDigits 10 m := by
    intro width m
    have hneg : ¬(m : Int) < 0 := by omega
    simp [zeroPadded, if_neg hneg]
  induction width generalizing n with
  | zero => exact absurd hpos (Nat.lt_irrefl 0)
  | succ width ih =>
    rw [hshape, lastDigits]
    by_cases hn : n < 10
    · rw [Nat.toDigits_of_lt_base hn, Nat.mod_eq_of_lt hn, Nat.div_eq_of_lt hn]
      congr 1
      rcases Nat.eq_zero_or_pos width with rfl | hw
      · rfl
      · rw [← ih hw (Nat.pow_pos (by decide)), hshape, Nat.toDigits_zero]
        obtain ⟨k, rfl⟩ : ∃ k, width = k + 1 := ⟨width - 1, by omega⟩
        exact List.replicate_succ'
    · have hw : 0 < width := by
        rcases Nat.eq_zero_or_pos width with rfl | hw
        · exact absurd h (by omega)
        · exact hw
      have hlt : n / 10 < 10 ^ width := Nat.div_lt_of_lt_mul (by rwa [Nat.mul_comm, ← Nat.pow_succ])
      rw [Nat.toDigits_of_base_le (by decide) (by omega), ← ih hw hlt, hshape, List.length_append,
        ← List.append_assoc]
      simp

theorem encode_digitChar :
    ∀ d < 10, String.utf8EncodeChar (Nat.digitChar d) = [UInt8.ofNat (48 + d)] := by
  decide

theorem isAsciiDigit_digitByte : ∀ d < 10, isAsciiDigit (UInt8.ofNat (48 + d)) = true := by
  decide

theorem encode_lastDigits : Utf8.encode (lastDigits width n) = lastDigitBytes width n := by
  induction width generalizing n with
  | zero => rfl
  | succ width ih =>
    rw [lastDigits, Utf8.encode_append, ih, Utf8.encode_cons,
      encode_digitChar _ (Nat.mod_lt n (by decide))]
    rfl

theorem toNat_digitByte {d : Nat} (h : d < 10) : (UInt8.ofNat (48 + d)).toNat = 48 + d := by
  rw [UInt8.toNat_ofNat']
  omega

theorem isAsciiDigit_lastDigitBytes : (lastDigitBytes width n).all isAsciiDigit = true := by
  induction width generalizing n with
  | zero => rfl
  | succ width ih =>
    rw [lastDigitBytes, List.all_append, ih, Bool.true_and, List.all_cons, List.all_nil,
      Bool.and_true]
    exact isAsciiDigit_digitByte _ (Nat.mod_lt n (by decide))

theorem foldl_lastDigitBytes : (lastDigitBytes width n).foldl
    (fun v b => v * 10 + (b.toNat - 48 : Int)) 0 = ((n % 10 ^ width : Nat) : Int) := by
  induction width generalizing n with
  | zero => simp [lastDigitBytes, Nat.mod_one]
  | succ width ih =>
    rw [lastDigitBytes, List.foldl_append, ih, List.foldl_cons, List.foldl_nil,
      toNat_digitByte (Nat.mod_lt n (by decide)), Nat.pow_succ, Nat.mul_comm (10 ^ width) 10,
      Nat.mod_mul]
    push_cast
    ring

/-- Digits written at a place are read there. -/
theorem digitsAt_lastDigitBytes (left right : List UInt8) {i : Nat} (hi : i = left.length)
    (h : n < 10 ^ width) :
    digitsAt (left ++ (lastDigitBytes width n ++ right)) i width = some (n : Int) := by
  subst hi
  unfold digitsAt
  have htake : ((left ++ (lastDigitBytes width n ++ right)).drop left.length).take width =
      lastDigitBytes width n := by
    rw [List.drop_left]
    exact List.take_left' length_lastDigitBytes
  rw [htake, if_neg (by simp), if_pos isAsciiDigit_lastDigitBytes, foldl_lastDigitBytes,
    Nat.mod_eq_of_lt h]

end Digits

section Calendar

variable {ts : Int} {dt : DateTime}

/-- The weekday of a day, except where the first day of `i64` is left. -/
theorem dayOfWeek_eq (hts : I64.Fits ts) : dayOfWeek ts =
    if -2 ^ 63 + 86399 ≤ ts then some ((3 + ts / 86400) % 7) else none := by
  obtain ⟨hlo, hhi⟩ := hts
  have hdays : (if 0 ≤ ts then some (ts.tdiv 86400)
      else (checkedSub ts 86399).map (·.tdiv 86400)) =
        if -2 ^ 63 + 86399 ≤ ts then some (ts / 86400) else none := by
    have hfloor := tdiv_floor (x := ts) (n := 86400) (by decide)
    split
    next hpos => rw [Int.tdiv_eq_ediv_of_nonneg hpos, if_pos (by omega)]
    next hneg =>
      rw [if_neg hneg] at hfloor
      split
      next hbound =>
        rw [checkedSub, if_pos ⟨by omega, by omega⟩, Option.map_some, ← hfloor]
        rfl
      next hbound =>
        rw [checkedSub, if_neg (fun hfits => hbound (by have := hfits.1; omega))]
        rfl
  unfold dayOfWeek
  rw [hdays, Option.bind_eq_bind]
  split
  · rw [Option.bind_some, bind_checkedAdd _ ⟨by omega, by omega⟩, Int.add_comm]
    rfl
  · rfl

/-- The day of the year counts from its first of January. -/
theorem dayOfYear_eq (h : dt.Valid) : dayOfYear dt.year dt.month dt.day =
    some (dt.date.number - Date.number ⟨dt.year, 1, 1⟩ + 1) := by
  have hday := h.date.day_of_year
  obtain ⟨⟨hpos, hle, -, -⟩, -, -, -⟩ := h
  obtain ⟨year, month, day, hour, minute, second⟩ := dt
  dsimp only [DateTime.date] at hpos hle hday ⊢
  obtain ⟨hbase, hmonth, hlast⟩ : ([0, 31, 59, 90, 120, 151, 181, 212, 243, 273, 304, 334] :
      List Int).getD (if month < 0 then 11 else min (month.toNat - 1) 11) 0 = monthStart month ∧
      0 ≤ monthStart month ∧ monthStart month ≤ 334 := by
    rcases month_cases hpos hle with rfl | rfl | rfl | rfl | rfl | rfl | rfl | rfl | rfl | rfl |
      rfl | rfl <;> exact ⟨rfl, by decide, by decide⟩
  have hleap : (if 2 < month ∧ isLeap year = true then (1 : Int) else 0) =
      if 2 < month ∧ IsLeap year then 1 else 0 := by
    simp only [isLeap_iff]
  unfold daysBefore at hday
  have hadd : 0 ≤ (if 2 < month ∧ IsLeap year then (1 : Int) else 0) := by
    split_ifs <;> omega
  have hyear := yearLength year
  have hone : daysBefore year 1 = 0 := by simp [daysBefore, monthStart]
  unfold dayOfYear
  rw [if_neg (by omega)]
  dsimp only
  rw [hbase, hleap, Option.bind_eq_bind, bind_checkedAdd _ ⟨by omega, by omega⟩, checkedAdd,
    if_pos ⟨by omega, by omega⟩]
  unfold Date.number
  dsimp only
  rw [hone, daysBefore]
  congr 1
  ring

/-- By the date, then the hour, the minute and the second. -/
def DateTime.Before (a b : DateTime) : Prop :=
  a.date.Before b.date ∨ a.date = b.date ∧ (a.hour < b.hour ∨ a.hour = b.hour ∧
    (a.minute < b.minute ∨ a.minute = b.minute ∧ a.second < b.second))

theorem DateTime.Valid.before_of_seconds_lt {a b : DateTime} (ha : a.Valid) (hb : b.Valid)
    (h : a.seconds < b.seconds) : a.Before b := by
  have hahour := ha.hour
  have hamin := ha.minute
  have hasec := ha.second
  have hbhour := hb.hour
  have hbmin := hb.minute
  have hbsec := hb.second
  unfold DateTime.seconds at h
  rcases Date.before_trichotomy a.date b.date with hdate | hdate | hdate
  · exact .inl hdate
  · rw [hdate] at h
    exact .inr ⟨hdate, by omega⟩
  · have hlt := hb.date.number_lt ha.date hdate
    omega

theorem DateTime.Valid.eq_of_seconds {a b : DateTime} (ha : a.Valid) (hb : b.Valid)
    (h : a.seconds = b.seconds) : a = b := by
  have hahour := ha.hour
  have hamin := ha.minute
  have hasec := ha.second
  have hbhour := hb.hour
  have hbmin := hb.minute
  have hbsec := hb.second
  unfold DateTime.seconds at h
  have hdate := ha.date.eq_of_number hb.date (by omega)
  rw [hdate] at h
  obtain ⟨y, mo, d, hr, mi, s⟩ := a
  obtain ⟨y', mo', d', hr', mi', s'⟩ := b
  simp only [DateTime.date, Date.mk.injEq, DateTime.mk.injEq] at hdate h ⊢
  dsimp only at hahour hamin hasec hbhour hbmin hbsec
  refine ⟨hdate.1, hdate.2.1, hdate.2.2, ?_, ?_, ?_⟩ <;> omega

theorem civil_of_seconds (h : dt.Valid) : civil dt.seconds = dt :=
  (civil_valid dt.seconds).eq_of_seconds h (civil_seconds dt.seconds)

end Calendar

section DefaultText

/-- The default text of a date and a time of day. -/
def defaultText (year month day hour minute second : Nat) : List Char :=
  lastDigits 4 year ++ '-' :: (lastDigits 2 month ++ '-' :: (lastDigits 2 day ++ 'T' ::
    (lastDigits 2 hour ++ ':' :: (lastDigits 2 minute ++ ':' :: lastDigits 2 second))))

variable {year month day hour minute second : Nat}

theorem formatChars_directive {dt : DateTime} {dow : Int} {c : Char} {cs text rest : List Char}
    (hc : directive dt dow c = some text) (hcs : formatChars dt dow cs = some rest) :
    formatChars dt dow ('%' :: c :: cs) = some (text ++ rest) := by
  simp only [formatChars, hc, hcs, Option.bind_eq_bind, Option.bind_some, Option.pure_def]

theorem formatChars_char {dt : DateTime} {dow : Int} {c : Char} {cs rest : List Char}
    (hc : c ≠ '%') (hcs : formatChars dt dow cs = some rest) :
    formatChars dt dow (c :: cs) = some (c :: rest) := by
  rw [formatChars.eq_2 dt dow c cs (fun _ _ h => absurd h hc), hcs, Option.map_some]

theorem formatChars_default (dow : Int) (hyear : year < 10 ^ 4) (hmonth : month < 10 ^ 2)
    (hday : day < 10 ^ 2) (hhour : hour < 10 ^ 2) (hminute : minute < 10 ^ 2)
    (hsecond : second < 10 ^ 2) :
    formatChars ⟨year, month, day, hour, minute, second⟩ dow defaultFormat =
      some (defaultText year month day hour minute second) := by
  obtain ⟨dt, hdt⟩ : ∃ dt : DateTime, dt = ⟨year, month, day, hour, minute, second⟩ := ⟨_, rfl⟩
  have htwo : ∀ {n : Nat}, n < 10 ^ 2 → some (zeroPadded 2 n) = some (lastDigits 2 n) :=
    fun h => congrArg some (zeroPadded_eq (by decide) h)
  have hY : directive dt dow 'Y' = some (lastDigits 4 year) := by
    rw [hdt]
    exact congrArg some (zeroPadded_eq (by decide) hyear)
  have hm : directive dt dow 'm' = some (lastDigits 2 month) := by
    rw [hdt]
    exact htwo hmonth
  have hd : directive dt dow 'd' = some (lastDigits 2 day) := by
    rw [hdt]
    exact htwo hday
  have hH : directive dt dow 'H' = some (lastDigits 2 hour) := by
    rw [hdt]
    exact htwo hhour
  have hM : directive dt dow 'M' = some (lastDigits 2 minute) := by
    rw [hdt]
    exact htwo hminute
  have hS : directive dt dow 'S' = some (lastDigits 2 second) := by
    rw [hdt]
    exact htwo hsecond
  have htime := formatChars_directive hH (formatChars_char (c := ':') (by decide)
    (formatChars_directive hM (formatChars_char (c := ':') (by decide)
      (formatChars_directive hS (rfl : formatChars dt dow [] = some [])))))
  have hwhole := formatChars_directive hY (formatChars_char (c := '-') (by decide)
    (formatChars_directive hm (formatChars_char (c := '-') (by decide)
      (formatChars_directive hd (formatChars_char (c := 'T') (by decide) htime)))))
  rw [List.append_nil] at hwhole
  rw [← hdt]
  exact hwhole

theorem isWhitespace_digitChar : ∀ d < 10, isWhitespace (Nat.digitChar d) = false := by
  decide

theorem dropWhile_of_head {p : Char → Bool} {a : Char} {text : List Char}
    (h : text.head? = some a) (ha : p a = false) : text.dropWhile p = text := by
  obtain ⟨rest, rfl⟩ := List.head?_eq_some_iff.mp h
  exact List.dropWhile_cons_of_neg (by simp [ha])

theorem trimMatches_of_ends {p : Char → Bool} {a b : Char} {text : List Char}
    (hhead : text.head? = some a) (hlast : text.getLast? = some b) (ha : p a = false)
    (hb : p b = false) : StrMethods.trimMatches p text = text := by
  unfold StrMethods.trimMatches StrMethods.trimStartMatches StrMethods.trimEndMatches
  rw [dropWhile_of_head hhead ha, dropWhile_of_head (by rwa [List.head?_reverse]) hb,
    List.reverse_reverse]

theorem trim_defaultText : StrMethods.trimMatches isWhitespace
    (defaultText year month day hour minute second) =
      defaultText year month day hour minute second := by
  have hmod : ∀ n : Nat, n % 10 < 10 := fun n => Nat.mod_lt n (by decide)
  refine trimMatches_of_ends rfl ?_ (isWhitespace_digitChar _ (hmod (year / 10 / 10 / 10)))
    (isWhitespace_digitChar _ (hmod second))
  simp [defaultText, lastDigits]

theorem parseFields_defaultText (hyear : year < 10 ^ 4) (hmonth : month < 10 ^ 2)
    (hday : day < 10 ^ 2) (hhour : hour < 10 ^ 2) (hminute : minute < 10 ^ 2)
    (hsecond : second < 10 ^ 2) :
    parseFields (Utf8.encode (defaultText year month day hour minute second)) =
      some (⟨year, month, day, hour, minute, second⟩, 0) := by
  obtain ⟨b, hb⟩ : ∃ b, b = Utf8.encode (defaultText year month day hour minute second) := ⟨_, rfl⟩
  have hbytes : b = lastDigitBytes 4 year ++ ([45] ++ (lastDigitBytes 2 month ++ ([45] ++
      (lastDigitBytes 2 day ++ ([84] ++ (lastDigitBytes 2 hour ++ ([58] ++
        (lastDigitBytes 2 minute ++ ([58] ++ (lastDigitBytes 2 second ++ [])))))))))) := by
    have hdash : String.utf8EncodeChar '-' = [45] := by decide
    have hsep : String.utf8EncodeChar 'T' = [84] := by decide
    have hcolon : String.utf8EncodeChar ':' = [58] := by decide
    rw [hb, defaultText]
    simp only [Utf8.encode_append, Utf8.encode_cons, encode_lastDigits, List.append_nil, hdash,
      hsep, hcolon]
  have hlen : b.length = 19 := by simp [hbytes]
  have hY : digitsAt b 0 4 = some (year : Int) := by
    rw [hbytes]
    exact digitsAt_lastDigitBytes [] _ rfl hyear
  have hm : digitsAt b 5 2 = some (month : Int) := by
    rw [hbytes, ← List.append_assoc]
    exact digitsAt_lastDigitBytes _ _ (by simp) hmonth
  have hd : digitsAt b 8 2 = some (day : Int) := by
    rw [hbytes]
    iterate 3 rw [← List.append_assoc]
    exact digitsAt_lastDigitBytes _ _ (by simp) hday
  have hH : digitsAt b 11 2 = some (hour : Int) := by
    rw [hbytes]
    iterate 5 rw [← List.append_assoc]
    exact digitsAt_lastDigitBytes _ _ (by simp) hhour
  have hM : digitsAt b 14 2 = some (minute : Int) := by
    rw [hbytes]
    iterate 7 rw [← List.append_assoc]
    exact digitsAt_lastDigitBytes _ _ (by simp) hminute
  have hS : digitsAt b 17 2 = some (second : Int) := by
    rw [hbytes]
    iterate 9 rw [← List.append_assoc]
    exact digitsAt_lastDigitBytes _ _ (by simp) hsecond
  have hseps : b.getD 4 0 = 45 ∧ b.getD 7 0 = 45 ∧ b.getD 10 0 = 84 ∧ b.getD 13 0 = 58 ∧
      b.getD 16 0 = 58 := by
    rw [hbytes]
    exact ⟨rfl, rfl, rfl, rfl, rfl⟩
  obtain ⟨h4, h7, h10, h13, h16⟩ := hseps
  rw [← hb]
  unfold parseFields
  simp only [hlen, hY, hm, hd, hH, hM, hS, h4, h7, h10, h13, h16, Option.bind_eq_bind,
    Option.bind_some, ne_eq, not_true_eq_false, false_and, if_false]
  rfl

end DefaultText

section Statement

variable {ts : Int}

theorem civil_default (hyear : 0 ≤ (civil ts).year ∧ (civil ts).year ≤ 9999) :
    ∃ year month day hour minute second : Nat,
      civil ts = ⟨year, month, day, hour, minute, second⟩ ∧ year < 10 ^ 4 ∧ month < 10 ^ 2 ∧
        day < 10 ^ 2 ∧ hour < 10 ^ 2 ∧ minute < 10 ^ 2 ∧ second < 10 ^ 2 := by
  have hvalid := civil_valid ts
  obtain ⟨dt, hdt⟩ : ∃ dt, civil ts = dt := ⟨_, rfl⟩
  rw [hdt] at hvalid hyear ⊢
  obtain ⟨⟨hpos, hle, hday, hlen⟩, hhour, hminute, hsecond⟩ := hvalid
  obtain ⟨year, month, day, hour, minute, second⟩ := dt
  have hshort := monthLength_le year month
  simp only [DateTime.date] at hpos hle hday hlen hhour hminute hsecond hyear
  refine ⟨year.toNat, month.toNat, day.toNat, hour.toNat, minute.toNat, second.toNat, ?_, ?_, ?_, ?_,
    ?_, ?_, ?_⟩
  · simp only [DateTime.mk.injEq]
    omega
  all_goals omega

/-- Within the years of four digits the default text reads back. -/
theorem parse_default (hts : I64.Fits ts) (hyear : 0 ≤ (civil ts).year ∧ (civil ts).year ≤ 9999) :
    ∃ text, datetimeFormat ts defaultFormat = some text ∧
      parseDatetimeStr text = some (some ts) := by
  have hvalid := civil_valid ts
  have hnumber : (civil ts).date.number = ts / 86400 := (civilDate_spec (ts / 86400)).2
  have hseconds := civil_seconds ts
  have hday := hvalid.date.day_of_year
  obtain ⟨year, month, day, hour, minute, second, hcivil, hy, hmo, hd, hh, hmi, hs⟩ :=
    civil_default hyear
  have hstart : -800000 ≤ (civil ts).date.number := by
    unfold Date.number yearStart
    rw [show (civil ts).date.year = (civil ts).year from rfl] at hday ⊢
    omega
  obtain ⟨hlo, hhi⟩ := hts
  have hback := ymdToUnix_eq hvalid (by omega) (by omega)
  refine ⟨defaultText year month day hour minute second, ?_, ?_⟩
  · unfold datetimeFormat
    rw [unixToYmdHms_eq ⟨hlo, hhi⟩, dayOfWeek_eq ⟨hlo, hhi⟩, if_pos (by omega), hcivil]
    exact formatChars_default ((3 + ts / 86400) % 7) hy hmo hd hh hmi hs
  · unfold parseDatetimeStr
    rw [trim_defaultText, parseFields_defaultText hy hmo hd hh hmi hs, ← hcivil]
    dsimp only
    rw [hback, hseconds, Option.bind_eq_bind, Option.bind_some, bind_checkedSub _ ⟨by omega, by omega⟩,
      Int.sub_zero]
    rfl

/-- Every timestamp is a date and a time of day of the calendar, which lead back to it; later ones
are later, and every date and time of day has one. The weekdays follow on Thursday, 1 January 1970,
the days of the year are counted from its first of January, and the default text of a year of four
digits reads back. -/
theorem civil_time_bijective (hts : I64.Fits ts) : ∃ dt, unixToYmdHms ts = some dt ∧
    (1 ≤ dt.month ∧ dt.month ≤ 12 ∧ 1 ≤ dt.day ∧ dt.day ≤ daysInMonth dt.year dt.month) ∧
    (0 ≤ dt.hour ∧ dt.hour < 24 ∧ 0 ≤ dt.minute ∧ dt.minute < 60 ∧ 0 ≤ dt.second ∧
      dt.second < 60) ∧
    dt.seconds = ts ∧
    (∀ r, ymdToUnix dt.year dt.month dt.day dt.hour dt.minute dt.second = some r → r = ts) ∧
    (-2 ^ 63 ≤ ts / 86400 * 86400 →
      ymdToUnix dt.year dt.month dt.day dt.hour dt.minute dt.second = some ts) ∧
    (∀ later laterDt, I64.Fits later → unixToYmdHms later = some laterDt → ts < later →
      dt.Before laterDt) ∧
    (∀ other : DateTime, other.Valid → other.seconds = ts → other = dt) ∧
    dayOfWeek ts = (if -2 ^ 63 + 86399 ≤ ts then some ((3 + ts / 86400) % 7) else none) ∧
    dayOfYear dt.year dt.month dt.day =
      some (dt.date.number - Date.number ⟨dt.year, 1, 1⟩ + 1) ∧
    (0 ≤ dt.year ∧ dt.year ≤ 9999 → ∃ text, datetimeFormat ts defaultFormat = some text ∧
      parseDatetimeStr text = some (some ts)) := by
  have hvalid := civil_valid ts
  have hnumber : (civil ts).date.number = ts / 86400 := (civilDate_spec (ts / 86400)).2
  have hseconds := civil_seconds ts
  have hlength : daysInMonth (civil ts).year (civil ts).month =
      monthLength (civil ts).year (civil ts).month :=
    daysInMonth_eq hvalid.date.month_pos hvalid.date.month_le
  refine ⟨civil ts, unixToYmdHms_eq hts, ⟨hvalid.date.month_pos, hvalid.date.month_le,
    hvalid.date.day_pos, ?_⟩, ⟨hvalid.hour.1, hvalid.hour.2, hvalid.minute.1, hvalid.minute.2,
    hvalid.second⟩, hseconds, ?_, ?_, ?_, ?_, dayOfWeek_eq hts, dayOfYear_eq hvalid,
    parse_default hts⟩
  · rw [hlength]
    exact hvalid.date.day_le
  · intro r hr
    rw [ymdToUnix_seconds hvalid.date.month_pos hvalid.date.month_le hr, hseconds]
  · intro hlo
    rw [ymdToUnix_eq hvalid (by rwa [hnumber]) (by rw [hseconds]; exact hts.2), hseconds]
  · intro later laterDt hlater heq hlt
    rw [unixToYmdHms_eq hlater] at heq
    obtain rfl := Option.some.inj heq
    apply hvalid.before_of_seconds_lt (civil_valid later)
    rw [hseconds, civil_seconds]
    exact hlt
  · intro other hother heq
    rw [← heq]
    exact (civil_of_seconds hother).symm

theorem civil_time_bijective_leap_day : unixToYmdHms 951868799 = some ⟨2000, 2, 29, 23, 59, 59⟩ ∧
    ymdToUnix 2000 2 29 23 59 59 = some 951868799 := by
  obtain ⟨dt, hdt, -, -, -, -, hback, -⟩ := 
    civil_time_bijective (show I64.Fits 951868799 by decide)
  have hcivil : unixToYmdHms 951868799 = some ⟨2000, 2, 29, 23, 59, 59⟩ := by decide
  rw [hcivil] at hdt
  obtain rfl := Option.some.inj hdt
  exact ⟨hcivil, hback (by decide)⟩

end Statement

end CivilTime

end Olive
