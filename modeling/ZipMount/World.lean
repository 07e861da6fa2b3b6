import ZipMount.Archive.Tree
import ZipMount.Failure
import ZipMount.Host.Basic
import ZipMount.Options.Basic
import ZipMount.Path

namespace ZipMount

/-- A mounted archive. -/
structure Mount where
  /-- The file it is read from and written back to. -/
  backing : Path
  /-- What is registered because of it: a file, in the registry of a number. -/
  registered : Option (Nat × Pathname)
  readOnly : Bool
  options : Options
  isOpen : Bool
  tree : Tree
  /-- Whether the file is to be written when the mount is closed. -/
  dirty : Bool

/-- All there is at one moment. -/
structure World where
  host : Host
  /-- The mounts by their numbers. -/
  mounts : List Mount
  /-- The files mounted by locator, each with the number of a registry. -/
  registrations : List (Nat × Pathname)
  /-- What the clock says each time it is asked. -/
  clock : Nat → Instant
  /-- How often the clock was asked. -/
  ticks : Nat
  /-- How many proxies were numbered. -/
  proxies : Nat
  principal : String

/-- What looks at the world or changes it, and may fail. What it did till then remains. -/
abbrev Work (α : Type) := ExceptT Error (StateM World) α

/-- What changes the world and gives a value, or stops short. -/
abbrev Action (α : Type) := ExceptT Failure (StateM World) α

namespace World

def start (host : Host) (clock : Nat → Instant) (principal : String) : World :=
  ⟨host, [], [], clock, 0, 0, principal⟩

def now (w : World) : Instant := w.clock w.ticks

/-- The world after the clock was asked. -/
def tick (w : World) : World := { w with ticks := w.ticks + 1 }

def mount? (w : World) (id : MountId) : Option Mount := w.mounts[id.number]?

/-- The world with something else in a mount's place. -/
def setMount (w : World) (id : MountId) (m : Mount) : World :=
  { w with mounts := w.mounts.set id.number m }

def openMount (w : World) (id : MountId) : Except Error Mount :=
  match w.mount? id with
  | none => .error (.closed "")
  | some m => if m.isOpen then .ok m else .error (.closed m.backing.display)

/-- The mount of a number, which has to be open for writing. -/
def writableMount (w : World) (id : MountId) : Except Error Mount := do
  let m ← w.openMount id
  if m.readOnly then throw (.readOnly m.backing.display)
  pure m

/-- The world after a change to a mount's members, which the mount has to remember. -/
def setTree (w : World) (id : MountId) (m : Mount) (t : Tree) : World :=
  w.setMount id { m with tree := t, dirty := true }

def isRegistered (w : World) (registry : Nat) (file : Pathname) : Bool :=
  w.registrations.any fun r => r.1 == registry && r.2.same file

def register (w : World) (registry : Nat) (file : Pathname) : World :=
  { w with registrations := (registry, file) :: w.registrations }

def unregister (w : World) (registry : Nat) (file : Pathname) : World :=
  { w with registrations := w.registrations.filter fun r => !(r.1 == registry && r.2.same file) }

/-- Takes out of the registry what was registered because of a mount. -/
def release (w : World) (m : Mount) : World :=
  match m.registered with
  | some (registry, file) => w.unregister registry file
  | none => w

end World

namespace Action

def ask {α : Type} (f : World → Except Error α) : Action α := fun w =>
  match f w with
  | .ok a => (.ok a, w)
  | .error e => (.error (.error e), w)

/-- What was found out. -/
def ofExcept {α : Type} (r : Except Failure α) : Action α := fun w => (r, w)

/-- Work as an action: it stops short with its error. -/
def ofWork {α : Type} (x : Work α) : Action α := fun w =>
  match x w with
  | (.ok a, w) => (.ok a, w)
  | (.error e, w) => (.error (.error e), w)

def fail {α : Type} (e : Error) : Action α := throw (.error e)

def noted {α : Type} (note : String) (act : Action α) : Action α := fun w =>
  match act w with
  | (.error f, w) => (.error (f.noted note), w)
  | r => r

/-- An action whose error is a value; what it did remains. -/
def attempt {α : Type} (act : Action α) : Action (Except Error α) := fun w =>
  match act w with
  | (.ok a, w) => (.ok (.ok a), w)
  | (.error (.error e), w) => (.ok (.error e), w)
  | (.error (.offCalendar t), w) => (.error (.offCalendar t), w)

def newNumber : Action Nat := fun w => (.ok (w.proxies + 1), { w with proxies := w.proxies + 1 })

end Action

end ZipMount
