import ZipMount.Time.Instant

namespace ZipMount

/-- A day of the calendar; months and days count from one. -/
structure Date where
  year : Int
  month : Nat
  day : Nat
deriving DecidableEq, Repr

namespace Date

/-- Every fourth year has a leap day, save the centuries that four hundred does not divide. -/
def isLeap (year : Int) : Bool := year % 4 == 0 && (year % 100 != 0 || year % 400 == 0)

def daysInMonth (year : Int) (month : Nat) : Nat :=
  if month = 2 then (if isLeap year then 29 else 28)
  else if month = 4 ∨ month = 6 ∨ month = 9 ∨ month = 11 then 30
  else 31

def isValid (d : Date) : Bool :=
  1 ≤ d.month && d.month ≤ 12 && 1 ≤ d.day && d.day ≤ daysInMonth d.year d.month

/-- The days before 1970 in a count that starts with 1 March of year 0. -/
def epochShift : Int := 719468

/-- The date of a day counted from the start of 1970. -/
def ofDay (n : Int) : Date :=
  let shifted := n + epochShift
  let inCycle := shifted % 146097
  let centuries := min (inCycle / 36524) 3
  let inCentury := inCycle - 36524 * centuries
  let fours := inCentury / 1461
  let inFours := inCentury % 1461
  let ones := min (inFours / 365) 3
  let inYear := inFours - 365 * ones
  let marchYear := 400 * (shifted / 146097) + 100 * centuries + 4 * fours + ones
  let marchMonth := (5 * inYear + 2) / 153
  let day := inYear - (153 * marchMonth + 2) / 5 + 1
  if marchMonth < 10 then ⟨marchYear, (marchMonth + 3).toNat, day.toNat⟩
  else ⟨marchYear + 1, (marchMonth - 9).toNat, day.toNat⟩

/-- The number of a day counted from the start of 1970. -/
def toDay (d : Date) : Int :=
  let marchYear := if 2 < d.month then d.year else d.year - 1
  let marchMonth : Int := if 2 < d.month then d.month - 3 else d.month + 9
  365 * marchYear + marchYear / 4 - marchYear / 100 + marchYear / 400
    + (153 * marchMonth + 2) / 5 + d.day - 1 - epochShift

end Date

/-- A date with the time of day, without fractions of a second. -/
structure CivilTime where
  date : Date
  hour : Nat
  minute : Nat
  second : Nat
deriving DecidableEq, Repr

namespace CivilTime

def ofInstant (t : Instant) : CivilTime where
  date := Date.ofDay (t.seconds / 86400)
  hour := (t.seconds % 86400 / 3600).toNat
  minute := (t.seconds % 3600 / 60).toNat
  second := (t.seconds % 60).toNat

def toInstant (c : CivilTime) : Instant :=
  Instant.ofSeconds (86400 * c.date.toDay + 3600 * c.hour + 60 * c.minute + c.second)

end CivilTime

/-- Whether the calendar reaches this instant: about 262 000 years either way. -/
def Instant.onCalendar (t : Instant) : Bool :=
  -8334601228800 ≤ t.seconds && t.seconds ≤ 8210266876799

end ZipMount
