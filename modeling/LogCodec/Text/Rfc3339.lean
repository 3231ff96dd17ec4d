import LogCodec.Text.Decimal

/-! # Dates and times

    A timestamp is shown as the date and time of day in the Gregorian calendar,
    which is also used for the time before it was introduced:
    `1970-01-01T00:00:01.500Z`.  Years outside 0 to 9999 have a sign.  Years
    beyond a quarter of a million have no such form. -/

namespace LogCodec.Rfc3339

/-! ### The calendar -/

/-- A date. -/
structure Date where
  year : Int
  month : Nat
  day : Nat
deriving DecidableEq

/-- The days of four hundred years, after which the calendar repeats. -/
def daysPerCycle : Int := 146097

/-- The days from 1 March of the year 0 to 1 January 1970. -/
def epochDays : Int := 719468

/-- The date a number of days after 1 January 1970.  Years are counted from 1
    March, so that the leap day is the last day of a year. -/
def Date.ofDays (days : Int) : Date :=
  let shifted := days + epochDays
  let cycle := Int.fdiv shifted daysPerCycle
  let day := (shifted - cycle * daysPerCycle).toNat
  let year := (day - day / 1460 + day / 36524 - day / 146096) / 365
  let yearDay := day - (365 * year + year / 4 - year / 100)
  let shiftedMonth := (5 * yearDay + 2) / 153
  let month := if shiftedMonth < 10 then shiftedMonth + 3 else shiftedMonth - 9
  { year := cycle * 400 + year + (if month ≤ 2 then 1 else 0)
    month := month
    day := yearDay - (153 * shiftedMonth + 2) / 5 + 1 }

/-- The first and the last year with a text. -/
def yearMin : Int := -262143

def yearMax : Int := 262142

/-! ### Text -/

/-- A number with at least `width` digits. -/
def padded (width n : Nat) : String :=
  let digits := toString n
  String.ofList (List.replicate (width - digits.length) '0') ++ digits

/-- A year: four digits, or a sign and at least four digits. -/
def yearText (year : Int) : String :=
  if 0 ≤ year ∧ year ≤ 9999 then padded 4 year.toNat
  else (if year < 0 then "-" else "+") ++ padded 4 year.natAbs

/-- The date and time of a timestamp in milliseconds, if its year has a text. -/
def text? (milliseconds : Int) : Option String :=
  let days := Int.fdiv milliseconds 86400000
  let rest := (milliseconds - days * 86400000).toNat
  let date := Date.ofDays days
  if yearMin ≤ date.year ∧ date.year ≤ yearMax then
    some <| yearText date.year ++ "-" ++ padded 2 date.month ++ "-" ++ padded 2 date.day
      ++ "T" ++ padded 2 (rest / 3600000) ++ ":" ++ padded 2 (rest / 60000 % 60)
      ++ ":" ++ padded 2 (rest / 1000 % 60) ++ "." ++ padded 3 (rest % 1000) ++ "Z"
  else none

end LogCodec.Rfc3339
