import Olive.Gregorian
import Olive.StrMethods
import Olive.Utf8
import Olive.WrappingInt

/-! Timestamps as dates and times of day, and as texts. Where an operator would leave `i64` there is
no result. -/

namespace Olive

namespace CivilTime

open I64

structure DateTime where
  year : Int
  month : Int
  day : Int
  hour : Int
  minute : Int
  second : Int
  deriving DecidableEq, Repr

def unixToYmdHms (ts : Int) : Option DateTime := do
  let sec := ts % 86400
  let h := sec.tdiv 3600
  let m := (sec.tmod 3600).tdiv 60
  let s := sec.tmod 60
  let d ← (if ts < 0 ∧ ts.tmod 86400 ≠ 0 then checkedSub (ts.tdiv 86400) 1
    else some (ts.tdiv 86400))
  let d ← checkedAdd d 719468
  let era := (← (if 0 ≤ d then some d else checkedSub d 146096)).tdiv 146097
  let doe ← checkedSub d (← checkedMul era 146097)
  let yoe := (← checkedSub (← checkedAdd (← checkedSub doe (doe.tdiv 1460)) (doe.tdiv 36524))
    (doe.tdiv 146096)).tdiv 365
  let y ← checkedAdd yoe (← checkedMul era 400)
  let doy ← checkedSub doe
    (← checkedSub (← checkedAdd (← checkedMul 365 yoe) (yoe.tdiv 4)) (yoe.tdiv 100))
  let mp := (← checkedAdd (← checkedMul 5 doy) 2).tdiv 153
  let day ← checkedAdd (← checkedSub doy ((← checkedAdd (← checkedMul 153 mp) 2).tdiv 5)) 1
  let month ← (if mp < 10 then checkedAdd mp 3 else checkedSub mp 9)
  let year ← (if month ≤ 2 then checkedAdd y 1 else some y)
  return ⟨year, month, day, h, m, s⟩

def isLeap (year : Int) : Bool :=
  (year.tmod 4 == 0 && year.tmod 100 != 0) || year.tmod 400 == 0

def daysInMonth (year month : Int) : Int :=
  if month = 1 ∨ month = 3 ∨ month = 5 ∨ month = 7 ∨ month = 8 ∨ month = 10 ∨ month = 12 then 31
  else if month = 4 ∨ month = 6 ∨ month = 9 ∨ month = 11 then 30
  else if month = 2 then if isLeap year then 29 else 28
  else 30

def ymdToUnix (year month day h min sec : Int) : Option Int := do
  let m ← (if month ≤ 2 then checkedAdd month 9 else checkedSub month 3)
  let y ← (if month ≤ 2 then checkedSub year 1 else some year)
  let era := (← (if 0 ≤ y then some y else checkedSub y 399)).tdiv 400
  let yoe ← checkedSub y (← checkedMul era 400)
  let doy ← checkedSub (← checkedAdd ((← checkedAdd (← checkedMul 153 m) 2).tdiv 5) day) 1
  let doe ← checkedAdd
    (← checkedSub (← checkedAdd (← checkedMul yoe 365) (yoe.tdiv 4)) (yoe.tdiv 100)) doy
  let days ← checkedSub (← checkedAdd (← checkedMul era 146097) doe) 719468
  checkedAdd (← checkedAdd (← checkedAdd (← checkedMul days 86400) (← checkedMul h 3600))
    (← checkedMul min 60)) sec

def dayOfWeek (ts : Int) : Option Int := do
  let days ← (if 0 ≤ ts then some (ts.tdiv 86400) else (checkedSub ts 86399).map (·.tdiv 86400))
  return (← checkedAdd days 3) % 7

/-- The index of the month is an unsigned word, and at most that of December. -/
def dayOfYear (year month day : Int) : Option Int := do
  if month = 0 then none else
  let index := if month < 0 then 11 else min (month.toNat - 1) 11
  let base := [0, 31, 59, 90, 120, 151, 181, 212, 243, 273, 304, 334].getD index 0
  let leapAdd := if 2 < month ∧ isLeap year then 1 else 0
  checkedAdd (← checkedAdd base day) leapAdd

/-- `{:0width}`: the sign stands before the zeros and counts for the width. -/
def zeroPadded (width : Nat) (n : Int) : List Char :=
  let digits := Nat.toDigits 10 n.natAbs
  let signChars := if n < 0 then ['-'] else []
  signChars ++ List.replicate (width - signChars.length - digits.length) '0' ++ digits

/-- `{:width}`. -/
def blankPadded (width : Nat) (n : Int) : List Char :=
  let digits := (if n < 0 then ['-'] else []) ++ Nat.toDigits 10 n.natAbs
  List.replicate (width - digits.length) ' ' ++ digits

def weekdayNames : List String := ["Mon", "Tue", "Wed", "Thu", "Fri", "Sat", "Sun"]

def weekdayFull : List String :=
  ["Monday", "Tuesday", "Wednesday", "Thursday", "Friday", "Saturday", "Sunday"]

def monthNames : List String :=
  ["", "Jan", "Feb", "Mar", "Apr", "May", "Jun", "Jul", "Aug", "Sep", "Oct", "Nov", "Dec"]

def monthFull : List String :=
  ["", "January", "February", "March", "April", "May", "June", "July", "August", "September",
    "October", "November", "December"]

/-- What a directive is replaced by. -/
def directive (dt : DateTime) (dow : Int) : Char → Option (List Char)
  | 'Y' => some (zeroPadded 4 dt.year)
  | 'y' => some (zeroPadded 2 (dt.year.tmod 100))
  | 'm' => some (zeroPadded 2 dt.month)
  | 'd' => some (zeroPadded 2 dt.day)
  | 'H' => some (zeroPadded 2 dt.hour)
  | 'M' => some (zeroPadded 2 dt.minute)
  | 'S' => some (zeroPadded 2 dt.second)
  | 'A' => some (weekdayFull.getD dow.toNat "").toList
  | 'a' => some (weekdayNames.getD dow.toNat "").toList
  | 'B' => some (monthFull.getD dt.month.toNat "").toList
  | 'b' | 'h' => some (monthNames.getD dt.month.toNat "").toList
  | 'e' => some (blankPadded 2 dt.day)
  | 'I' => some (zeroPadded 2 (if dt.hour.tmod 12 = 0 then 12 else dt.hour.tmod 12))
  | 'p' => some (if dt.hour < 12 then "AM" else "PM").toList
  | 'P' => some (if dt.hour < 12 then "am" else "pm").toList
  | 'j' => (dayOfYear dt.year dt.month dt.day).map (zeroPadded 3)
  | 'u' => some (blankPadded 0 (dow + 1))
  | 'w' => some (blankPadded 0 ((dow + 1).tmod 7))
  | '%' => some ['%']
  | 'n' => some ['\n']
  | 't' => some ['\t']
  | x => some ['%', x]

def formatChars (dt : DateTime) (dow : Int) : List Char → Option (List Char)
  | '%' :: c :: rest => do return (← directive dt dow c) ++ (← formatChars dt dow rest)
  | c :: rest => (formatChars dt dow rest).map (c :: ·)
  | [] => some []

/-- `olive_datetime_format` of a whole number of seconds. -/
def datetimeFormat (ts : Int) (fmt : List Char) : Option (List Char) := do
  formatChars (← unixToYmdHms ts) (← dayOfWeek ts) fmt

def defaultFormat : List Char := "%Y-%m-%dT%H:%M:%S".toList

def isAsciiDigit (b : UInt8) : Bool := 48 ≤ b && b ≤ 57

def digitsAt (bytes : List UInt8) (i width : Nat) : Option Int :=
  if bytes.length < i + width then none
  else if ((bytes.drop i).take width).all isAsciiDigit then
    some (((bytes.drop i).take width).foldl (fun v b => v * 10 + (b.toNat - 48 : Int)) 0)
  else none

/-- `u8::is_ascii_whitespace`. -/
def isAsciiWhitespace (b : UInt8) : Bool :=
  b == 9 || b == 10 || b == 12 || b == 13 || b == 32

def parseTzSuffix (s : List UInt8) : Int :=
  let s := ((s.dropWhile isAsciiWhitespace).reverse.dropWhile isAsciiWhitespace).reverse
  match s with
  | [90] | [122] => 0
  | b :: rest =>
    let hours := if 2 ≤ rest.length then (digitsAt rest 0 2).getD 0 else 0
    let minutes := if 5 ≤ rest.length then (digitsAt rest 3 2).getD 0 else 0
    if b = 43 then hours * 3600 + minutes * 60
    else if b = 45 then -(hours * 3600 + minutes * 60)
    else 0
  | [] => 0

/-- The characters with the property `White_Space`. -/
def isWhitespace (c : Char) : Bool :=
  let n := c.toNat
  (9 ≤ n && n ≤ 13) || n == 0x20 || n == 0x85 || n == 0xA0 || n == 0x1680 ||
    (0x2000 ≤ n && n ≤ 0x200A) || n == 0x2028 || n == 0x2029 || n == 0x202F || n == 0x205F ||
    n == 0x3000

/-- The fields of a text: the time of day, and the offset that a suffix gives. -/
def parseFields (b : List UInt8) : Option (DateTime × Int) := do
  if b.length < 10 then none else
  let year ← digitsAt b 0 4
  if b.getD 4 0 ≠ 45 then none else
  let month ← digitsAt b 5 2
  if b.getD 7 0 ≠ 45 then none else
  let day ← digitsAt b 8 2
  if b.length ≤ 10 then return (⟨year, month, day, 0, 0, 0⟩, 0) else
  if b.getD 10 0 ≠ 84 ∧ b.getD 10 0 ≠ 32 then none else
  if b.length < 19 then none else
  let h ← digitsAt b 11 2
  if b.getD 13 0 ≠ 58 then none else
  let min ← digitsAt b 14 2
  if b.getD 16 0 ≠ 58 then none else
  let sec ← digitsAt b 17 2
  return (⟨year, month, day, h, min, sec⟩, if 19 < b.length then parseTzSuffix (b.drop 19) else 0)

/-- The outer option is an operator that leaves `i64`, the inner one a text that is no date. -/
def parseDatetimeStr (s : List Char) : Option (Option Int) :=
  match parseFields (Utf8.encode (StrMethods.trimMatches isWhitespace s)) with
  | none => some none
  | some (dt, tzOffset) => do
    let ts ← ymdToUnix dt.year dt.month dt.day dt.hour dt.minute dt.second
    return some (← checkedSub ts tzOffset)

end CivilTime

end Olive
