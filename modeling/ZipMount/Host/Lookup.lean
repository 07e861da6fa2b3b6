import ZipMount.Error
import ZipMount.Host.Basic

namespace ZipMount

/-- A step on the way along a path. -/
inductive Step where
  | here
  | up
  | name (n : Filename)
  /-- A slash at the end, which asks for a directory. -/
  | slash
deriving DecidableEq, Repr

/-- Where a path leads. -/
inductive Spot where
  /-- To an entry. -/
  | entry (loc : Location)
  /-- To a name that is free in a directory. -/
  | vacant (directory : Location) (name : Filename)
deriving DecidableEq, Repr

/-- How the end of a path is treated. -/
structure Manner where
  /-- A link at the end is followed. -/
  followLast : Bool
  /-- A slash after the last name is refused, there being no file of such a name. -/
  refuseSlash : Bool
deriving DecidableEq, Repr

namespace Manner

/-- To look at what a path leads to. -/
def target : Manner := ⟨true, false⟩

/-- To look at the entry itself, be it a link. -/
def itself : Manner := ⟨false, false⟩

/-- To write a file that may be there. -/
def writing : Manner := ⟨true, true⟩

/-- To create a file that may not be there. -/
def creating : Manner := ⟨false, true⟩

end Manner

def Step.ofSegment? (s : Filename) : Option Step :=
  if s = [] then none
  else if s = [46] then some .here
  else if s = [46, 46] then some .up
  else some (.name s)

def Pathname.steps (p : Pathname) : List Step :=
  let steps := p.segments.filterMap Step.ofSegment?
  if steps ≠ [] ∧ p.bytes.getLast? = some 47 then steps ++ [.slash] else steps

/-- The steps along a path that may end in a slash without meaning anything by it. -/
def Pathname.plainSteps (p : Pathname) : List Step := p.segments.filterMap Step.ofSegment?

namespace Host

/-- The longest name of an entry. -/
def longestName : Nat := 255

/-- Paths of this length are refused. -/
def pathLimit : Nat := 4096

/-- How many links are followed along one path. -/
def linkLimit : Nat := 40

/-- Takes steps from a location; `onLink` goes on at a link that is to be followed. -/
def advanceWith (h : Host) (m : Manner) (onLink : Location → List Step → Except Errno Spot) :
    Location → List Step → Except Errno Spot
  | loc, [] => .ok (.entry loc)
  | loc, step :: rest =>
    match h.node? loc with
    | none => .error .noEntry
    | some (.directory _) =>
      match step with
      | .here => advanceWith h m onLink loc rest
      | .slash => advanceWith h m onLink loc rest
      | .up => advanceWith h m onLink loc.dropLast rest
      | .name n =>
        if m.refuseSlash ∧ rest = [.slash] then .error .isDirectory
        else if longestName < n.length then .error .nameTooLong
        else match h.node? (loc ++ [n]) with
          | none => if rest = [] then .ok (.vacant loc n) else .error .noEntry
          | some (.link target) =>
            if rest = [] ∧ ¬ m.followLast then .ok (.entry (loc ++ [n]))
            else onLink (if target.isAbsolute then [] else loc) (target.steps ++ rest)
          | some _ => advanceWith h m onLink (loc ++ [n]) rest
    | some _ => .error .notDirectory

/-- Takes steps from a location, following so many links. -/
def advance (h : Host) (m : Manner) : Nat → Location → List Step → Except Errno Spot
  | 0 => h.advanceWith m fun _ _ => .error .tooManyLinks
  | links + 1 => h.advanceWith m (advance h m links)

/-- Where a path leads that is put to the host with these steps. -/
def lookup (h : Host) (m : Manner) (p : Pathname) (steps : List Step) : Except Errno Spot :=
  if p.bytes = [] then .error .noEntry
  else if pathLimit ≤ p.bytes.length then .error .nameTooLong
  else h.advance m linkLimit (if p.isAbsolute then [] else h.workingDirectory) steps

def find (h : Host) (m : Manner) (p : Pathname) : Except Errno (Location × HostNode) := do
  match ← h.lookup m p p.steps with
  | .entry loc =>
    match h.node? loc with
    | some n => pure (loc, n)
    | none => throw .noEntry
  | .vacant .. => throw .noEntry

end Host

end ZipMount
