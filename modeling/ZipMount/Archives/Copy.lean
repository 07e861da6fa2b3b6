import ZipMount.Archives.Open

namespace ZipMount.Archives

/-- Copies one entry of a tree: a directory without what is in it, or a file over whatever file is
there. -/
def copyEntry (source target : Path) : Action Unit := do
  if source.isDirectory (← get) then target.ensureDirectory else source.copy target .replace

/-- Where an entry of a source is copied to, the source itself being copied to a target. -/
def destination (source target p : Path) : Except Error Path := do
  let relative ← p.relativeTo source
  pure (if relative = "" then target else target.resolve relative)

def copyBeneath (source target p : Path) : Action Unit := do
  let d ← Action.ask fun _ => destination source target p
  Action.noted s!"Could not copy {p.display} to {d.display}" (copyEntry p d)

def copyTree (source target : Path) (order : WalkOrder) : Action Unit := do
  let found ← Action.ask (source.walk order)
  found.forM (copyBeneath source target)

/-- Copies a source into an archive: of a directory what is beneath it, a file under its name. -/
def copyIntoArchive (source : Path) (fs : FileSystem) (order : WalkOrder) : Action Unit := do
  let root := fs.path "/"
  if source.isDirectory (← get) then copyTree source root order
  else
    match source.fileName? with
    | none => .fail (.notFound source.display)
    | some name =>
      let target := root.resolve name
      Action.noted s!"Could not copy {source.display} to {target.display}"
        (source.copy target .replace)

/-- Copies everything in a mounted archive to beneath a target. -/
def copyFromArchive (fs : FileSystem) (target : Path) : Action Unit :=
  copyTree fs.root target .natural

def ensureTarget (target : Path) : Action Unit := do
  let w ← get
  if target.exists? w && !target.isDirectory w then
    let why := "as a file already exists with the same name"
    .fail (.notADirectory s!"Could not create directory '{target.display}' {why}")
  else target.makeDirectories

/-- Adds a source to the archive at a path, creating the archive if there is none. -/
def zipTree (source : Path) (archive : Pathname) : Action Unit := do
  let fs ← openOrCreate archive []
  FileSystem.andThen (copyIntoArchive source fs .natural) fs.close

/-- Copies everything in the archive at a path to beneath a target, which is created if need be. -/
def unzip (archive target : Path) : Action Unit := do
  let note := s!"Could not unzip {archive.display} to target dir {target.display}"
  Action.noted note (ensureTarget target)
  let fs ← openArchive archive []
  FileSystem.andThen (Action.noted note (copyFromArchive fs target)) fs.close

/-- Creates an archive of a source, the same to the byte for the same entries: they come in the
order of their names, and all have one time. -/
def zipReproducibly (source : Path) (archive : Pathname) (time : Instant) : Action Unit := do
  let fs ← createReproducible archive [] (some time)
  FileSystem.andThen (copyIntoArchive source fs .sorted) fs.close

end ZipMount.Archives
