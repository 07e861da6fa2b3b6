import ZipMount.Time.Calendar

namespace ZipMount

/-- The two packed words: seven bits for the year from 1980, four for the month and five for the day;
five bits for the hour, six for the minute, and five for half the seconds. -/
structure DosTime where
  date : UInt16
  time : UInt16
deriving DecidableEq, Repr, Inhabited

namespace DosTime

/-- The start of 1980, the first moment there is. -/
def first : DosTime := ⟨33, 0⟩

def pack (c : CivilTime) : DosTime where
  date := UInt16.ofNat ((c.date.year - 1980).toNat * 512 + c.date.month * 32 + c.date.day)
  time := UInt16.ofNat (c.hour * 2048 + c.minute * 32 + c.second / 2)

/-- The fields as they are packed, whether or not there is such a moment. -/
def fields (w : DosTime) : CivilTime where
  date := ⟨(w.date.toNat / 512 : Nat) + 1980, w.date.toNat / 32 % 16, w.date.toNat % 32⟩
  hour := w.time.toNat / 2048
  minute := w.time.toNat / 32 % 64
  second := w.time.toNat % 32 * 2

/-- The moment the words name, if there is one. A seconds field of 30 is a leap second and reads as
the one before it. -/
def toCivil? (w : DosTime) : Option CivilTime :=
  let c := w.fields
  if c.date.isValid && c.hour ≤ 23 && c.minute ≤ 59 && c.second ≤ 60 then
    some { c with second := min c.second 58 }
  else none

/-- The instant the words name, if there is one. -/
def toInstant? (w : DosTime) : Option Instant := w.toCivil?.map CivilTime.toInstant

/-- The words for a calendar reading: the year moved into the years there are, the second rounded
down to an even one. A day that the moved year does not have gives the first moment. -/
def ofCivil (c : CivilTime) : DosTime :=
  let moved : CivilTime :=
    { c with
      date := { c.date with year := max 1980 (min 2107 c.date.year) }
      second := c.second / 2 * 2 }
  if moved.date.isValid then pack moved else first

def ofInstant (t : Instant) : DosTime := ofCivil (CivilTime.ofInstant t)

end DosTime

end ZipMount
