import ZipMount.Archive.Image
import ZipMount.Operations.Changing

namespace ZipMount

/-- What a mount starts with. -/
structure Loaded where
  tree : Tree
  readOnly : Bool
  /-- There is no file yet, so that one has to be written. -/
  isNew : Bool

namespace World

/-- Whether an archive file can be read only. Every other trouble with it is an error. -/
def probeWriting (w : World) (backing : Path) : Except Error Bool :=
  match backing.provider.check w backing [.write] with
  | .ok () => .ok false
  | .error e => if e.isPermissionDenied then .ok true else .error e

def loadFile (w : World) (backing : Path) : Except Error Loaded := do
  Error.noted s!"Archive {backing.display} is not readable"
    (backing.provider.check w backing [.read])
  let readOnly ← w.probeWriting backing
  let data ← backing.provider.read w backing
  let tree ← Error.noted s!"Could not read archive {backing.display}" (Tree.decode w.now data)
  pure ⟨tree, readOnly, false⟩

/-- Reads an archive file, or starts an empty archive if there is none and one may be created. -/
def load (w : World) (backing : Path) (options : Options) : Except Error Loaded :=
  match backing.provider.check w backing [] with
  | .ok () => w.loadFile backing
  | .error e =>
    if e.isNotFound && options.creates then .ok ⟨.empty w.now, false, true⟩ else .error e

def nextMount (w : World) (registry : Nat) : MountId := ⟨w.mounts.length, registry⟩

def mount (w : World) (registry : Nat) (backing : Path) (env : Env)
    (registered : Option (Nat × Pathname)) : Except Error (MountId × World) := do
  let options ← Options.ofEnv env
  let loaded ← w.load backing options
  let m : Mount :=
    { backing := backing
      registered := registered
      readOnly := loaded.readOnly
      options := options
      isOpen := true
      tree := loaded.tree
      dirty := loaded.isNew }
  pure (w.nextMount registry, { w.tick with mounts := w.mounts ++ [m] })

end World

/-- Mounts the archive a locator names. Its file is registered before it is looked at, and taken out
of the registry again if it cannot be mounted. -/
def Work.mountLocator (registry : Nat) (l : Locator) (env : Env) : Work MountId := do
  if l.scheme ≠ Locator.jar then throw (.invalidLocator l.text)
  let file ← ask fun _ => l.archiveFile
  if (← get).isRegistered registry file then throw (.alreadyMounted l.text)
  modify fun w => w.register registry file
  match (← get).mount registry (.host file) env (some (registry, file)) with
  | .ok (id, w) =>
    set w
    pure id
  | .error e =>
    modify fun w => w.unregister registry file
    throw e

namespace Provider

def newFileSystem (prov : Provider) (p : Path) (env : Env) : Action FileSystem := fun w =>
  match prov.reach p with
  | (.archive registry, q) =>
    match w.mount registry q env none with
    | .ok (id, w) => (.ok (.archive id), w)
    | .error e => (.error (.error e), w)
  | (base, q) =>
    (.error (.error (.context q.display (.unsupported "new_file_system" base.scheme))), w)

def newFileSystemAt : Provider → Locator → Env → Action FileSystem
  | .granting _ d, l, env => d.newFileSystemAt l env
  | .denying _ d, l, env => d.newFileSystemAt l env
  | .archive registry, l, env => do
    pure (.archive (← .ofWork (Work.mountLocator registry l env)))
  | .host, _, _ => .fail (.unsupported "new_file_system_at" Locator.file)

end Provider

end ZipMount
