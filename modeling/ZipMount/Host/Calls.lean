import ZipMount.Attributes
import ZipMount.Host.Lookup

namespace ZipMount.Host

/-- Checks that something is there and grants some modes. Everything may be read and written; only
directories may be executed, that is, searched. -/
def access (h : Host) (p : Pathname) (modes : List AccessMode) : Except Errno Unit :=
  if p.hasZero then .error .invalid
  else do
    match ← h.find .target p with
    | (_, .directory _) => pure ()
    | _ => if .execute ∈ modes then throw .denied else pure ()

/-- Puts a path to the host that must not hold a zero byte. -/
def onPath {α : Type} (p : Pathname) (r : Except Errno α) : Except IoFault α :=
  if p.hasZero then .error .zeroInName else r.mapError IoFault.host

def attributesOf : HostNode → Attributes
  | .directory modified => ⟨.directory, 0, .all modified⟩
  | .file data modified => ⟨.file, data.size, .all modified⟩
  | .link _ => ⟨.file, 0, .all .epoch⟩

def stat (h : Host) (p : Pathname) : Except IoFault Attributes :=
  onPath p do
    let (_, n) ← h.find .target p
    pure (attributesOf n)

/-- Sets the time of modification, if one is given. Other times cannot be seen here. -/
def setTimes (h : Host) (p : Pathname) (change : TimeChange) : Except IoFault Host :=
  onPath p do
    let (loc, n) ← h.find .target p
    match change.modified, n with
    | some t, .directory _ => pure (h.alter loc (.directory t))
    | some t, .file data _ => pure (h.alter loc (.file data t))
    | _, _ => pure h

def makeDirectory (h : Host) (now : Instant) (p : Pathname) : Except IoFault Host :=
  onPath p do
    match ← h.lookup .itself p p.plainSteps with
    | .entry _ => throw .exists
    | .vacant directory name => pure (h.add now (directory ++ [name]) (.directory now))

def read (h : Host) (p : Pathname) : Except IoFault ByteArray :=
  onPath p do
    match ← h.find .target p with
    | (_, .file data _) => pure data
    | _ => throw .isDirectory

def create (h : Host) (now : Instant) (p : Pathname) (data : ByteArray) : Except Errno Host := do
  match ← h.lookup .creating p p.steps with
  | .entry _ => throw .exists
  | .vacant directory name => pure (h.add now (directory ++ [name]) (.file data now))

/-- Gives a file new contents, or creates it, if need be where a link leads. -/
def replace (h : Host) (now : Instant) (p : Pathname) (data : ByteArray) : Except Errno Host := do
  match ← h.lookup .writing p p.steps with
  | .entry loc =>
    match h.node? loc with
    | some (.file ..) => pure (h.alter loc (.file data now))
    | some _ => throw .isDirectory
    | none => throw .noEntry
  | .vacant directory name => pure (h.add now (directory ++ [name]) (.file data now))

def write (h : Host) (now : Instant) (p : Pathname) (data : ByteArray) (mode : WriteMode) :
    Except IoFault Host :=
  onPath p <|
    match mode with
    | .createNew => h.create now p data
    | .replace => h.replace now p data

/-- Takes out an empty directory, which has to be called by its name. -/
def removeDirectory (h : Host) (now : Instant) (p : Pathname) : Except Errno Host :=
  match p.plainSteps.getLast? with
  | none => .error .busy
  | some .here => .error .invalid
  | some .up => .error .notEmpty
  | some _ => do
    match ← h.lookup .itself p p.plainSteps with
    | .entry loc =>
      match h.node? loc with
      | some (.directory _) => if h.isOccupied loc then throw .notEmpty else pure (h.drop now loc)
      | _ => throw .notDirectory
    | .vacant .. => throw .noEntry

/-- Takes out a file, a link or an empty directory. -/
def remove (h : Host) (now : Instant) (p : Pathname) : Except IoFault Host :=
  onPath p do
    match ← h.find .itself p with
    | (_, .directory _) => h.removeDirectory now p
    | (loc, _) => pure (h.drop now loc)

def list (h : Host) (p : Pathname) : Except IoFault (List Filename) :=
  onPath p do
    match ← h.find .target p with
    | (loc, .directory _) => pure (h.namesIn loc)
    | _ => throw .notDirectory

def makeLink (h : Host) (now : Instant) (p target : Pathname) : Except IoFault Host :=
  if target.hasZero then .error .zeroInName
  else onPath p <|
    if target.bytes = [] then .error .noEntry
    else if pathLimit ≤ target.bytes.length then .error .nameTooLong
    else do
      match ← h.lookup .itself p p.plainSteps with
      | .entry _ => throw .exists
      | .vacant directory name =>
        if p.steps.getLast? = some .slash then throw .noEntry
        else pure (h.add now (directory ++ [name]) (.link target))

/-- Takes out an entry with everything beneath it. -/
def removeAll (h : Host) (now : Instant) (p : Pathname) : Except IoFault Host :=
  onPath p do
    let (loc, _) ← h.find .itself p
    pure (h.dropAll now loc)

def isDirectory (h : Host) (p : Pathname) : Bool :=
  match h.stat p with
  | .ok a => a.isDirectory
  | .error _ => false

/-- Creates a directory and the directories above it, so many at most. -/
def makeDirectoriesUpTo : Nat → Host → Instant → Pathname → Except IoFault Host
  | 0, h, _, _ => .ok h
  | n + 1, h, now, p =>
    if p.bytes = [] then .ok h
    else match h.makeDirectory now p with
      | .ok h => .ok h
      | .error f =>
        if f = .host .noEntry then
          match p.parent with
          | none => .error f
          | some above => do
            let h ← makeDirectoriesUpTo n h now above
            match h.makeDirectory now p with
            | .ok h => pure h
            | .error f => if h.isDirectory p then pure h else throw f
        else if h.isDirectory p then .ok h
        else .error f

/-- Creates a directory and those above it that are missing. -/
def makeDirectories (h : Host) (now : Instant) (p : Pathname) : Except IoFault Host :=
  makeDirectoriesUpTo (p.bytes.length + 1) h now p

/-- Writes a file after creating the directories it is to be in. -/
def writeBelow (h : Host) (now : Instant) (p : Pathname) (data : ByteArray) :
    Except IoFault Host := do
  let h ← match p.parent with
    | some above => h.makeDirectories now above
    | none => pure h
  h.write now p data .replace

end ZipMount.Host
