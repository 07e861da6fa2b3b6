namespace ZipMount

/-- A point in time; negative before 1970. -/
structure Instant where
  nanoseconds : Int
deriving DecidableEq, Repr, Inhabited

namespace Instant

/-- Nanoseconds in a second. -/
def perSecond : Int := 1000000000

/-- The start of 1970. -/
def epoch : Instant := ⟨0⟩

/-- An instant by whole seconds and the nanoseconds to add to them. -/
def ofParts (seconds : Int) (nanos : Nat) : Instant := ⟨seconds * perSecond + nanos⟩

def ofSeconds (seconds : Int) : Instant := ofParts seconds 0

/-- The seconds since 1970, rounded down. -/
def seconds (t : Instant) : Int := t.nanoseconds / perSecond

/-- The nanoseconds after the last whole second. -/
def nanos (t : Instant) : Nat := (t.nanoseconds % perSecond).toNat

/-- The instant without its fraction of a second. -/
def wholeSecond (t : Instant) : Instant := ofSeconds t.seconds

theorem seconds_ofParts (s : Int) {n : Nat} (h : n < 1000000000) : (ofParts s n).seconds = s := by
  simp only [seconds, ofParts, perSecond]; omega

theorem seconds_ofSeconds (s : Int) : (ofSeconds s).seconds = s := seconds_ofParts s (by omega)

theorem ofParts_seconds_nanos (t : Instant) : ofParts t.seconds t.nanos = t := by
  cases t with
  | mk n => simp only [ofParts, seconds, nanos, perSecond, Instant.mk.injEq]; omega

end Instant

/-- The three times a member carries. -/
structure Times where
  created : Instant
  modified : Instant
  accessed : Instant
deriving DecidableEq, Repr, Inhabited

def Times.all (t : Instant) : Times := ⟨t, t, t⟩

/-- Times to set; those left out stay as they are. -/
structure TimeChange where
  created : Option Instant
  modified : Option Instant
  accessed : Option Instant
deriving DecidableEq, Repr, Inhabited

/-- A change that sets all three times to one instant. -/
def TimeChange.all (t : Instant) : TimeChange := ⟨some t, some t, some t⟩

def Times.changed (ts : Times) (c : TimeChange) : Times where
  created := c.created.getD ts.created
  modified := c.modified.getD ts.modified
  accessed := c.accessed.getD ts.accessed

@[simp] theorem Times.changed_all (ts : Times) (t : Instant) :
    ts.changed (TimeChange.all t) = Times.all t := rfl

end ZipMount
