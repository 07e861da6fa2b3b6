import ZipMount.Files
import ZipMount.Mounting.Close
import ZipMount.Mounting.Open
import ZipMount.Options.File

namespace ZipMount.Archives

/-- The registry of the provider that everybody shares. -/
def installed : Nat := 0

def locator (file : Pathname) (w : World) : Except Error Locator :=
  Locator.forArchive Locator.jar w.host.cwd file

def openArchive (p : Path) (env : Env) : Action FileSystem := do
  let env := Env.merge (Options.ownerEnv (← get).principal) env
  Action.noted s!"Failed to create a new filesystem for {p.display}"
    ((Provider.archive installed).newFileSystem p.assumingWritable env)

def openLocator (l : Locator) (env : Env) : Action FileSystem := do
  let env := Env.merge (Options.ownerEnv (← get).principal) env
  Action.noted s!"Failed to create a new filesystem for {l.text}"
    ((Provider.archive installed).newFileSystemAt l env)

/-- Creates an archive where nothing is, after the directories it is to be in. -/
def createArchive (file : Pathname) (env : Env) : Action FileSystem := do
  let backing := Path.host file
  if backing.exists? (← get) then .fail (.alreadyExists file.display)
  if let some above := backing.parent? then
    if above.pathname.bytes ≠ [] then
      Action.noted s!"Could not create parent directories of {file.display}" above.makeDirectories
  let l ← Action.ask (locator file)
  openLocator l (Env.merge (Options.createEnv (← get).principal) env)

/-- Opens the archive at a path, creating it if there is none. -/
def openOrCreate (file : Pathname) (env : Env) : Action FileSystem := do
  if (Path.host file).exists? (← get) then openArchive (.host file) env else createArchive file env

def loadOptions (file : Pathname) (w : World) : Except Error Options := do
  let unreadable := fun (text : String) =>
    Error.config s!"Failed to read options file {file.display}: {text}"
  let data ← (w.host.read file).mapError fun f => unreadable f.text
  match Text.ofBytes? data.data.toList with
  | none => throw (unreadable "stream did not contain valid UTF-8")
  | some text =>
    match Options.ofToml? text with
    | some o => pure o
    | none => throw (.config s!"Failed to parse options file {file.display}")

/-- Opens the archive at a path as a file of options says, creating it if there is none. -/
def openOrCreateConfigured (file options : Pathname) : Action FileSystem := do
  let o ← Action.ask (loadOptions options)
  openOrCreate file o.toEnv

/-- A file system all of whose members get one time before it is closed. The time needs a date. -/
def stamping (fs : FileSystem) (time : Option Instant) : Action FileSystem := do
  if let some t := time then
    if !t.onCalendar then throw (.offCalendar t)
  pure (.stamping (← Action.newNumber) fs time)

/-- Creates an archive all of whose members get one time before it is closed. -/
def createReproducible (file : Pathname) (env : Env) (time : Option Instant) :
    Action FileSystem := do
  if let some t := time then
    if !t.onCalendar then throw (.offCalendar t)
  stamping (← createArchive file env) time

end ZipMount.Archives
