import ZipMount.Operations.Changing

namespace ZipMount.Path

def exists? (p : Path) (w : World) : Bool := (p.provider.check w p []).isOk

def attributes (p : Path) (w : World) : Except Error Attributes := p.provider.attributes w p

def isDirectory (p : Path) (w : World) : Bool :=
  match p.attributes w with
  | .ok a => a.isDirectory
  | .error _ => false

def read (p : Path) (w : World) : Except Error ByteArray := p.provider.read w p

def walk (p : Path) (order : WalkOrder) (w : World) : Except Error (List Path) :=
  p.provider.walk w order p

def makeDirectory (p : Path) : Action Unit := .ofWork (Work.makeDirectory p.provider p)

def write (p : Path) (data : ByteArray) (mode : WriteMode) : Action Unit :=
  .ofWork (Work.write p.provider p data mode)

/-- Creates an empty directory, unless there is a directory already. -/
def ensureDirectory (p : Path) : Action Unit := do
  match ← p.makeDirectory.attempt with
  | .ok () => pure ()
  | .error e => if !(e.isAlreadyExists && p.isDirectory (← get)) then .fail e

/-- Creates a directory, and the directories above it, so many at most. -/
def makeDirectoriesUpTo : Nat → Path → Action Unit
  | 0, _ => pure ()
  | n + 1, p => do
    if p.isDirectory (← get) then return
    if let some above := p.parent? then
      if above.pathname.bytes ≠ [] then makeDirectoriesUpTo n above
    p.ensureDirectory

/-- Creates a directory and the directories above it that are missing. A parent's path is shorter,
so its length bounds how many there are. -/
def makeDirectories (p : Path) : Action Unit := makeDirectoriesUpTo (p.pathname.bytes.length + 1) p

/-- Copies one entry. Of a directory only the directory itself is copied, not what is in it. -/
def copy (source target : Path) (mode : WriteMode) : Action Unit := do
  let a ← Action.ask source.attributes
  if a.isDirectory then
    if !(mode == .replace && target.isDirectory (← get)) then target.makeDirectory
  else
    let data ← Action.ask source.read
    target.write data mode

/-- The path taken from a base, with slashes between the names; empty if they are the same. -/
def relativeTo (p base : Path) : Except Error String :=
  match p.pathname.relativeTo? base.pathname with
  | some steps => .ok (Pathname.stepsText steps)
  | none => .error (.notFound s!"{p.display} is not beneath {base.display}")

end ZipMount.Path
