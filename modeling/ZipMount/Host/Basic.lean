import ZipMount.Contents
import ZipMount.Pathname
import ZipMount.Table
import ZipMount.Time.Instant

namespace ZipMount

/-- The names on the way from the root to an entry. -/
abbrev Location := List Filename

/-- An entry of a host directory. -/
inductive HostNode where
  | directory (modified : Instant)
  | file (data : ByteArray) (modified : Instant)
  | link (target : Pathname)
deriving DecidableEq

/-- The host's files, which everybody may read and write. The root is a directory and is not listed.
A directory was modified when an entry of it last came or went. -/
structure Host where
  entries : Table Location HostNode
  rootModified : Instant
  workingDirectory : Location
deriving DecidableEq

namespace Host

def empty (now : Instant) : Host := ⟨[], now, []⟩

def node? (h : Host) (loc : Location) : Option HostNode :=
  if loc = [] then some (.directory h.rootModified) else h.entries.get? loc

def touch (h : Host) (now : Instant) (loc : Location) : Host :=
  if loc = [] then { h with rootModified := now }
  else match h.entries.get? loc with
    | some (.directory _) => { h with entries := h.entries.put loc (.directory now) }
    | _ => h

/-- Puts a new entry at a location beneath the root. -/
def add (h : Host) (now : Instant) (loc : Location) (n : HostNode) : Host :=
  { h with entries := h.entries.put loc n }.touch now loc.dropLast

/-- Puts something else in the place of an entry. -/
def alter (h : Host) (loc : Location) (n : HostNode) : Host :=
  if loc = [] then
    match n with
    | .directory modified => { h with rootModified := modified }
    | _ => h
  else { h with entries := h.entries.put loc n }

def drop (h : Host) (now : Instant) (loc : Location) : Host :=
  { h with entries := h.entries.erase loc }.touch now loc.dropLast

def namesIn (h : Host) (loc : Location) : List Filename :=
  h.entries.keys.filterMap fun l => if l.dropLast = loc then l.getLast? else none

def isOccupied (h : Host) (loc : Location) : Bool := h.namesIn loc != []

/-- The entries anywhere beneath a location, by the names that lead to them from there. -/
def beneath (h : Host) (loc : Location) : List (Location × HostNode) :=
  h.entries.filterMap fun (l, n) =>
    if loc.isPrefixOf l && l != loc then some (l.drop loc.length, n) else none

/-- Takes out an entry and everything beneath it. -/
def dropAll (h : Host) (now : Instant) (loc : Location) : Host :=
  { h with entries := h.entries.filter fun e => !loc.isPrefixOf e.1 }.touch now loc.dropLast

def cwd (h : Host) : Pathname := ⟨47 :: Text.joined 47 h.workingDirectory⟩

end Host

end ZipMount
