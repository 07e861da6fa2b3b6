import ZipMount.Error
import ZipMount.Time.Calendar

namespace ZipMount

/-- An error, or an instant off the calendar where a date was needed. -/
inductive Failure where
  | error (e : Error)
  | offCalendar (t : Instant)
deriving DecidableEq, Repr

/-- Says what was attempted. Only an error takes a note. -/
def Failure.noted (note : String) : Failure → Failure
  | .error e => .error (.context note e)
  | .offCalendar t => .offCalendar t

end ZipMount
